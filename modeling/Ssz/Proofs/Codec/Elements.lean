import Ssz.Codec.Decode
import Ssz.Proofs.Codec.Span

/-! Sequences are laid out like containers with one field for each element. -/

namespace Ssz

/-- The spans of the elements of a sequence, as decoding takes them. -/
def elementSpans (element : Schema) (bytes : Bytes) (expected : Count) :
    Except DecodeError (List Span) :=
  match element.fixedSize with
  | some size => fixedSpans bytes size expected
  | none => variableSpans bytes expected

/-- As many nameless fields of one schema as a sequence has elements. -/
def elementFields (element : Schema) (count : Nat) : List Field :=
  List.replicate count ⟨"", element⟩

/-- One more element is one more field in front. -/
theorem elementFields_succ (element : Schema) (count : Nat) :
    elementFields element (count + 1) = ⟨"", element⟩ :: elementFields element count := rfl

section Variable

variable {element : Schema} (varying : element.fixedSize = none)

include varying

/-- The offsets of fields of varying size are the entries of a table. -/
theorem fieldOffsets_variable (bytes : Bytes) (count position : Nat) (offsets : List Nat) :
    fieldOffsets bytes (elementFields element count) position = .ok offsets ↔
      readTable count (bytes.drop position) = .ok offsets := by
  -- Each field moves the position by one entry, as each entry shortens the table.
  induction count generalizing position offsets with
  | zero => rfl
  | succ count ih =>
    have same (offset : Nat) : readOffset (bytes.drop position) 0 = .ok offset ↔
        readOffset bytes position = .ok offset := by
      rw [readOffset_eq_ok, readOffset_eq_ok, List.drop_zero]
    simp only [elementFields_succ, fieldOffsets, varying, readTable, bind_eq_ok, same, ih,
      List.drop_drop]

/-- The spans of fields of varying size are taken in turn. -/
theorem fieldSpans_variable (fixedEnd : Nat) {count : Nat} (position : Nat) {spans : List Span}
    (sized : spans.length = count) :
    fieldSpans fixedEnd (elementFields element count) position spans = spans := by
  -- No field is inline, so every step takes the next span and skips one offset.
  induction count generalizing position spans with
  | zero =>
    obtain rfl := List.length_eq_zero_iff.mp sized
    rfl
  | succ count ih =>
    cases spans with
    | nil => simp at sized
    | cons span rest =>
      have later := ih (position + bytesPerOffset) (by simpa using sized)
      simp only [elementFields_succ, fieldSpans, varying, List.headD_cons, List.tail_cons, later]

end Variable

/-- Fields of one size lie side by side. -/
theorem fieldSpans_fixed {element : Schema} {size : Nat} (fixed : element.fixedSize = some size)
    (fixedEnd count position : Nat) :
    fieldSpans fixedEnd (elementFields element count) position [] =
      (List.range count).map fun entry =>
        ⟨position + entry * size, position + (entry + 1) * size⟩ := by
  induction count generalizing position with
  | zero => rfl
  | succ count ih =>
    simp only [elementFields_succ, fieldSpans, fixed, ih (position + size), List.range_succ_eq_map,
      List.map_cons, List.map_map]
    -- The later spans, counted from the next position, are the entries after the first.
    congr 1
    · simp
    · apply List.map_congr_left
      intro entry _
      simp only [Function.comp_apply, Nat.succ_eq_add_one, Nat.add_mul, Nat.one_mul]
      congr 1 <;> omega

/-- Fields of one size have no offsets. -/
theorem fieldOffsets_fixed {element : Schema} {size : Nat} (fixed : element.fixedSize = some size)
    (bytes : Bytes) (count position : Nat) :
    fieldOffsets bytes (elementFields element count) position = .ok [] := by
  induction count generalizing position with
  | zero => rfl
  | succ count ih => simp only [elementFields_succ, fieldOffsets, fixed, ih (position + size)]

/-- The fixed part of a sequence has the same width for each element. -/
theorem fixedEnd_elementFields (element : Schema) (count : Nat) :
    Schema.fixedEnd (elementFields element count) = count * element.fixedPart := by
  induction count with
  | zero => simp [elementFields, Schema.fixedEnd]
  | succ count ih => rw [elementFields_succ, Schema.fixedEnd, ih, Nat.succ_mul, Nat.add_comm]

/-- There is one span for each offset. -/
@[simp] theorem length_spansBetween (length : Nat) (offsets : List Nat) :
    (spansBetween length offsets).length = offsets.length := by
  induction offsets with
  | nil => rfl
  | cons offset rest ih => rw [spansBetween_cons, List.length_cons, List.length_cons, ih]

/-- An input is cut into one span for each offset. -/
theorem length_spansOfOffsets {offsets : List Nat} {fixedEnd length : Nat} {spans : List Span}
    (cut : spansOfOffsets offsets fixedEnd length = .ok spans) : spans.length = offsets.length := by
  rw [← (spansOfOffsets_eq_ok.mp cut).2.2, length_spansBetween]

/-- A table has as many entries as asked for. -/
theorem length_readTable {count : Nat} {bytes : Bytes} {offsets : List Nat}
    (read : readTable count bytes = .ok offsets) : offsets.length = count := by
  -- Each step reads one offset.
  induction count generalizing bytes offsets with
  | zero =>
    obtain rfl := Except.ok.inj read
    rfl
  | succ count ih =>
    simp only [readTable, bind_eq_ok, pure_eq_ok, Except.ok.injEq] at read
    obtain ⟨_, _, rest, later, rfl⟩ := read
    rw [List.length_cons, ih later]

/-- The spans between offsets start at the offsets. -/
theorem map_start_spansBetween (length : Nat) (offsets : List Nat) :
    (spansBetween length offsets).map Span.start = offsets := by
  induction offsets with
  | nil => rfl
  | cons offset rest ih => rw [spansBetween_cons, List.map_cons, ih]

/-- Spans between ordered offsets start in order. -/
theorem Ordered.pairwise {length : Nat} {offsets : List Nat} (ordered : Ordered length offsets) :
    (spansBetween length offsets).Pairwise fun first second => first.start ≤ second.start := by
  -- Only the starts matter, and these are the offsets themselves.
  rw [← List.pairwise_map, map_start_spansBetween]
  induction offsets with
  | nil => exact .nil
  | cons offset rest ih =>
    obtain ⟨first, later⟩ := ordered
    refine .cons ?_ (ih later)
    intro other member
    cases rest with
    | nil => cases member
    | cons next rest =>
      -- The order of neighbours reaches every later offset through the next one.
      rcases List.mem_cons.mp member with rfl | behind
      · exact first
      · exact Nat.le_trans first (List.rel_of_pairwise_cons (ih later) behind)

/-- The pieces of a sequence whose elements have the given serializations. -/
def slicePieces (element : Schema) (slices : List Bytes) : List Piece :=
  slices.map fun slice => ⟨!element.isFixedSize, slice⟩

/-- Pieces of nameless fields are pieces of elements. -/
theorem slicePieces_of_holds {element : Schema} {count : Nat} {pieces : List Piece}
    (each : List.Forall₂ Field.Holds (elementFields element count) pieces) :
    pieces.length = count ∧ slicePieces element (pieces.map Piece.bytes) = pieces := by
  -- A field says of its piece whether it is variable, so the bytes are all that is free.
  induction count generalizing pieces with
  | zero =>
    cases each
    exact ⟨rfl, rfl⟩
  | succ count ih =>
    cases each with
    | @cons _ piece _ rest head tail =>
      obtain ⟨sized, same⟩ := ih tail
      refine ⟨by rw [List.length_cons, sized], ?_⟩
      have kind : piece.isVariable = !element.isFixedSize := head.1
      simp only [slicePieces] at same
      simp only [slicePieces, List.map_cons, same]
      rw [← kind]

/-- Elements of the right sizes are pieces of nameless fields. -/
theorem holds_slicePieces {element : Schema} {slices : List Bytes}
    (sized : ∀ size, element.fixedSize = some size → ∀ slice ∈ slices, slice.length = size) :
    List.Forall₂ Field.Holds (elementFields element slices.length)
      (slicePieces element slices) := by
  -- All fields have the schema of the element, so each slice is held for the same reason.
  induction slices with
  | nil => exact .nil
  | cons slice rest ih =>
    refine .cons ⟨rfl, fun size fixed => sized size fixed slice (by simp)⟩ (ih ?_)
    exact fun size fixed other member => sized size fixed other (by simp [member])

/-- Elements of one size need no table, so their spans follow from their number. -/
theorem containerSpans_fixed {element : Schema} {size : Nat} (fixed : element.fixedSize = some size)
    (bytes : Bytes) (count : Nat) :
    containerSpans (elementFields element count) bytes =
      .ok ((List.range count).map fun entry => ⟨entry * size, (entry + 1) * size⟩) := by
  have empty : spansOfOffsets [] (count * element.fixedPart) bytes.length = .ok [] := rfl
  simp [containerSpans, fieldOffsets_fixed fixed, fixedEnd_elementFields, empty,
    fieldSpans_fixed fixed]

/-- Elements of varying size are cut out by a table of their offsets. -/
theorem containerSpans_variable {element : Schema} (varying : element.fixedSize = none)
    {bytes : Bytes} {count : Nat} {spans : List Span} :
    containerSpans (elementFields element count) bytes = .ok spans ↔
      ∃ offsets, readTable count bytes = .ok offsets ∧
        spansOfOffsets offsets (count * bytesPerOffset) bytes.length = .ok spans := by
  simp only [containerSpans, bind_eq_ok, pure_eq_ok, Except.ok.injEq,
    fieldOffsets_variable varying, List.drop_zero, fixedEnd_elementFields,
    Schema.fixedPart_of_varying varying]
  -- There are as many spans as offsets, so each field takes its own and none is left over.
  constructor
  · rintro ⟨offsets, read, pending, cut, rfl⟩
    have sized := (length_spansOfOffsets cut).trans (length_readTable read)
    rw [fieldSpans_variable varying _ _ sized]
    exact ⟨offsets, read, cut⟩
  · rintro ⟨offsets, read, cut⟩
    have sized := (length_spansOfOffsets cut).trans (length_readTable read)
    exact ⟨offsets, read, spans, cut, fieldSpans_variable varying _ _ sized⟩

/-- The spans of elements start in order. -/
theorem containerSpans_pairwise {element : Schema} {bytes : Bytes} {count : Nat}
    {spans : List Span} (read : containerSpans (elementFields element count) bytes = .ok spans) :
    spans.Pairwise fun first second => first.start ≤ second.start := by
  -- Fixed elements start at multiples of their size, others where the ordered offsets say.
  cases fixed : element.fixedSize with
  | some size =>
    rw [containerSpans_fixed fixed] at read
    obtain rfl := Except.ok.inj read
    rw [List.pairwise_map]
    exact List.pairwise_lt_range.imp fun before => Nat.mul_le_mul_right size (Nat.le_of_lt before)
  | none =>
    obtain ⟨offsets, _, cut⟩ := (containerSpans_variable fixed).mp read
    obtain ⟨_, ordered, rfl⟩ := spansOfOffsets_eq_ok.mp cut
    exact ordered.pairwise

/-- Elements of one size are counted by dividing the input into them without remainder. -/
theorem fixedSpans_eq_ok {bytes : Bytes} {size : Nat} {expected : Count} {spans : List Span}
    (positive : 0 < size) :
    fixedSpans bytes size expected = .ok spans ↔
      ∃ count, expected.check count = .ok () ∧
        (List.range count).map (fun entry => ⟨entry * size, (entry + 1) * size⟩) = spans ∧
        bytes.length = count * size := by
  unfold fixedSpans
  -- The length is divided by the size, which is undone because the size is not zero.
  constructor
  · intro read
    split at read
    · cases read
    · rename_i whole
      simp only [bind_eq_ok, pure_eq_ok, Except.ok.injEq] at read
      obtain ⟨⟨⟩, checked, same⟩ := read
      have exact : bytes.length / size * size = bytes.length :=
        Nat.div_mul_cancel (Nat.dvd_of_mod_eq_zero (not_not.mp whole))
      exact ⟨_, checked, same, exact.symm⟩
  · rintro ⟨count, checked, same, exact⟩
    have counted : bytes.length / size = count := by rw [exact, Nat.mul_div_cancel _ positive]
    rw [exact, Nat.mul_mod_left, ← exact, counted]
    simp only [ne_eq, not_true_eq_false, if_false, checked, ok_bind, pure_eq_ok, same]

/-- A table that is read from an input fits in it, and only the empty input has the empty table. -/
theorem table_of_variableSpans {bytes : Bytes} {expected : Count} {spans : List Span}
    (read : variableSpans bytes expected = .ok spans) :
    ∃ count offsets, expected.check count = .ok () ∧ readTable count bytes = .ok offsets ∧
      spansOfOffsets offsets (count * bytesPerOffset) bytes.length = .ok spans ∧
      count * bytesPerOffset ≤ bytes.length ∧ (count = 0 → bytes.length = 0) := by
  simp only [variableSpans] at read
  split at read
  · -- An empty input is read as no elements at all.
    rename_i empty
    simp only [bind_eq_ok, pure_eq_ok, Except.ok.injEq] at read
    obtain ⟨⟨⟩, checked, rfl⟩ := read
    rw [List.isEmpty_iff] at empty
    subst empty
    exact ⟨0, [], checked, rfl, rfl, Nat.le_refl _, fun _ => rfl⟩
  split at read
  · cases read
  obtain ⟨first, own, read⟩ := bind_eq_ok.mp read
  split at read
  · cases read
  rename_i aligned
  split at read
  · cases read
  rename_i inside
  simp only [bind_eq_ok] at read
  obtain ⟨⟨⟩, checked, offsets, table, cut⟩ := read
  -- The first offset was checked to be a whole number of entries, and not zero.
  have whole : first / bytesPerOffset * bytesPerOffset = first := by
    simp only [bytesPerOffset] at aligned ⊢
    omega
  refine ⟨_, offsets, checked, table, by rwa [whole], by omega, ?_⟩
  simp only [bytesPerOffset] at aligned ⊢
  omega

/--
The first offset tells where the table ends, so it counts the elements, and what is expected of
their number is all that is left to check.
-/
theorem variableSpans_of_table {bytes : Bytes} {expected : Count} {spans : List Span}
    {count : Nat} {offsets : List Nat} (table : readTable count bytes = .ok offsets)
    (cut : spansOfOffsets offsets (count * bytesPerOffset) bytes.length = .ok spans)
    (room : count * bytesPerOffset ≤ bytes.length) (exact : count = 0 → bytes.length = 0) :
    variableSpans bytes expected = expected.check count >>= fun _ => .ok spans := by
  unfold variableSpans
  cases count with
  | zero =>
    -- Without elements there is no table, and the input is empty.
    have empty : bytes = [] := List.length_eq_zero_iff.mp (exact rfl)
    obtain rfl := Except.ok.inj table
    obtain rfl : [] = spans := Except.ok.inj cut
    simp only [empty, List.isEmpty_nil, if_true, pure_eq_ok]
  | succ count =>
    -- The first offset is the end of the table, from which the count is read back.
    have begins := (spansOfOffsets_eq_ok.mp cut).1
    obtain ⟨first, own, rest, later, rfl⟩ : ∃ first, readOffset bytes 0 = .ok first ∧
        ∃ rest, readTable count (bytes.drop bytesPerOffset) = .ok rest ∧
          first :: rest = offsets := by
      simpa [readTable, bind_eq_ok] using table
    obtain rfl := begins first rfl
    have counted : (count + 1) * bytesPerOffset / bytesPerOffset = count + 1 :=
      Nat.mul_div_cancel _ (by decide)
    -- The table fits in the input, so all the checks before it is read pass.
    have reach : (count + 1) * 4 ≤ bytes.length := room
    have long : ¬ bytes.length < bytesPerOffset := by
      unfold bytesPerOffset
      omega
    have some : ¬ bytes.isEmpty := by
      rw [List.isEmpty_iff_length_eq_zero]
      omega
    have aligned : ¬ ((count + 1) * bytesPerOffset = 0 ∨
        (count + 1) * bytesPerOffset % bytesPerOffset ≠ 0) := by
      unfold bytesPerOffset
      omega
    simp only [if_neg some, if_neg long, own, ok_bind, if_neg aligned,
      if_neg (Nat.not_lt.mpr room), counted, table, cut]

/-- The spans of a sequence are those of a container of its elements, counted as expected. -/
theorem elementSpans_eq_ok {element : Schema} {bytes : Bytes} {expected : Count}
    {spans : List Span} (positive : ∀ size, element.fixedSize = some size → 0 < size) :
    elementSpans element bytes expected = .ok spans ↔
      ∃ count, expected.check count = .ok () ∧
        containerSpans (elementFields element count) bytes = .ok spans ∧
        count * element.fixedPart ≤ bytes.length ∧
        (element.isFixedSize ∨ count = 0 → bytes.length = count * element.fixedPart) := by
  unfold elementSpans
  -- Without offsets the count comes from the length, with offsets from the first of them.
  cases fixed : element.fixedSize with
  | some size =>
    simp only [Schema.fixedPart_of_fixed fixed, Schema.isFixedSize, fixed, Option.isSome_some,
      true_or, forall_const, containerSpans_fixed fixed, Except.ok.injEq,
      fixedSpans_eq_ok (positive size fixed)]
    constructor
    · rintro ⟨count, checked, same, exact⟩
      exact ⟨count, checked, same, Nat.le_of_eq exact.symm, exact⟩
    · rintro ⟨count, checked, same, _, exact⟩
      exact ⟨count, checked, same, exact⟩
  | none =>
    simp only [Schema.fixedPart_of_varying fixed, containerSpans_variable fixed,
      Schema.isFixedSize, fixed, Option.isSome_none, Bool.false_eq_true, false_or]
    constructor
    · intro read
      obtain ⟨count, offsets, checked, table, cut, room, exact⟩ := table_of_variableSpans read
      refine ⟨count, checked, ⟨offsets, table, cut⟩, room, ?_⟩
      rintro rfl
      simpa using exact rfl
    · rintro ⟨count, checked, ⟨offsets, table, cut⟩, room, exact⟩
      rw [variableSpans_of_table table cut room, checked, ok_bind]
      rintro rfl
      simpa using exact rfl

/-- Spans that start in order are cut out in one pass. -/
theorem CutInto.cutSpans_eq {bytes : Bytes} {spans : List Span} {slices : List Bytes}
    (cut : CutInto bytes spans slices)
    (ordered : spans.Pairwise fun first second => first.start ≤ second.start) :
    cutSpans 0 bytes spans = slices := by
  -- Cutting in one pass never has to go back, as no span starts before an earlier one.
  have onePass := cutSpans_drop bytes spans 0 ordered fun _ _ => Nat.zero_le _
  rw [List.drop_zero] at onePass
  rw [onePass]
  clear onePass ordered
  induction cut with
  | nil => rfl
  | cons head _ ih => rw [List.map_cons, ih, head.2.2]

section Sequence

variable {element : Schema} (positive : ∀ size, element.fixedSize = some size → 0 < size)

include positive

/-- A sequence is cut into as many slices of its input as expected, and they assemble to it. -/
theorem elementSpans_sound {bytes : Bytes} {expected : Count} {spans : List Span}
    (read : elementSpans element bytes expected = .ok spans) :
    expected.check spans.length = .ok () ∧
      CutInto bytes spans (cutSpans 0 bytes spans) ∧
      Piece.OffsetsFit (slicePieces element (cutSpans 0 bytes spans)) ∧
      Piece.assemble (slicePieces element (cutSpans 0 bytes spans)) = bytes := by
  obtain ⟨count, checked, read, room, exact⟩ := (elementSpans_eq_ok positive).mp read
  rw [← fixedEnd_elementFields] at room exact
  -- A sequence is cut like a container, whose spans join to the input again.
  obtain ⟨pieces, each, cut, fit, joined⟩ := containerSpans_sound read room (by
    intro fixed
    apply exact
    cases count with
    | zero => exact .inr rfl
    | succ count => exact .inl (fixed ⟨"", element⟩ (by simp [elementFields])))
  obtain ⟨sized, same⟩ := slicePieces_of_holds each
  have counted : spans.length = count := by rw [cut.length_eq, List.length_map, sized]
  rw [cut.cutSpans_eq (containerSpans_pairwise read), same, counted]
  exact ⟨checked, cut, fit, joined⟩

/-- The serializations of elements are cut out of the sequence that they assemble to. -/
theorem elementSpans_assemble {slices : List Bytes} {expected : Count}
    (sized : ∀ size, element.fixedSize = some size → ∀ slice ∈ slices, slice.length = size)
    (checked : expected.check slices.length = .ok ())
    (fit : Piece.OffsetsFit (slicePieces element slices)) :
    ∃ spans, elementSpans element (Piece.assemble (slicePieces element slices)) expected =
        .ok spans ∧
      spans.length = slices.length ∧
      cutSpans 0 (Piece.assemble (slicePieces element slices)) spans = slices := by
  have each := holds_slicePieces sized
  have width := Field.fixedEnd_eq each
  rw [fixedEnd_elementFields] at width
  obtain ⟨spans, read, cut⟩ := containerSpans_assemble each fit
  have slicesBack : (slicePieces element slices).map Piece.bytes = slices := by
    rw [slicePieces, List.map_map]
    exact List.map_id slices
  rw [slicesBack] at cut
  have found : elementSpans element (Piece.assemble (slicePieces element slices)) expected =
      .ok spans := by
    refine (elementSpans_eq_ok positive).mpr ⟨slices.length, checked, read, ?_, ?_⟩
    · rw [Piece.length_assemble, width]
      exact Nat.le_add_right _ _
    · -- Where no element is behind an offset, the fixed part is all there is.
      intro inline
      have none : ∀ piece ∈ slicePieces element slices, piece.isVariable = false := by
        rcases inline with fixed | empty
        · simp [slicePieces, fixed]
        · simp [slicePieces, List.length_eq_zero_iff.mp empty]
      rw [Piece.length_assemble, width, Piece.back_inline none, List.length_nil, Nat.add_zero]
  exact ⟨spans, found, cut.length_eq, cut.cutSpans_eq (containerSpans_pairwise read)⟩

end Sequence

end Ssz
