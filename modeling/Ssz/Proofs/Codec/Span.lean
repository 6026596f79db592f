import Ssz.Codec.Span
import Ssz.Proofs.Codec.Layout

/-! Offset tables: the spans that are cut out join to the input again, and only to that one. -/

namespace Ssz

namespace Bytes

/-- Adjacent slices join. -/
theorem slice_append_drop (bytes : Bytes) {start stop : Nat} (ordered : start ≤ stop) :
    bytes.slice start stop ++ bytes.drop stop = bytes.drop start := by
  -- Dropping up to the stop is dropping up to the start and then the slice.
  have rest : bytes.drop stop = (bytes.drop start).drop (stop - start) := by
    rw [List.drop_drop, Nat.add_sub_cancel' ordered]
  rw [slice, rest, List.take_append_drop]

/-- A slice inside the input has the length of its span. -/
theorem length_slice {bytes : Bytes} {start stop : Nat} (inside : stop ≤ bytes.length) :
    (bytes.slice start stop).length = stop - start := by
  simp only [slice, List.length_take, List.length_drop]
  omega

/-- A slice of a known width at the front of what a position leaves over. -/
theorem slice_add (bytes : Bytes) (start width : Nat) :
    bytes.slice start (start + width) = (bytes.drop start).take width := by
  rw [slice, Nat.add_sub_cancel_left]

end Bytes

/-- An offset is read from the four bytes that spell it. -/
theorem readOffset_eq_ok {bytes : Bytes} {position offset : Nat} :
    readOffset bytes position = .ok offset ↔
      offset ≤ maxOffset ∧ (bytes.drop position).take bytesPerOffset =
        littleEndian bytesPerOffset offset := by
  rw [readOffset, Bytes.slice_add]
  -- The digits matter only through their number and their value.
  generalize (bytes.drop position).take bytesPerOffset = digits
  constructor
  · intro read
    split at read
    · rename_i sized
      obtain rfl := Except.ok.inj read
      have small := ofLittleEndian_lt digits
      have whole := littleEndian_ofLittleEndian digits
      rw [sized] at small whole
      exact ⟨Nat.le_of_lt_succ small, whole.symm⟩
    · cases read
  · rintro ⟨small, spelled⟩
    simp only [spelled, littleEndian_length, if_true]
    rw [ofLittleEndian_littleEndian_of_lt (Nat.lt_succ_of_le small)]

/-- Offsets do not decrease, and none lies past the end of the input. -/
def Ordered (length : Nat) : List Nat → Prop
  | [] => True
  | offset :: rest => offset ≤ rest.headD length ∧ Ordered length rest

/-- Offsets pass the checks of their order exactly when they are ordered. -/
theorem ordered_iff {length : Nat} {offsets : List Nat} :
    Ordered length offsets ↔
      firstDecrease? offsets = none ∧ offsets.getLast?.any (length < ·) = false := by
  induction offsets with
  | nil => simp [Ordered, firstDecrease?]
  | cons offset rest ih =>
    cases rest with
    | nil => simp [Ordered, firstDecrease?]
    | cons next rest =>
      rw [Ordered, ih, firstDecrease?, List.headD_cons, List.getLast?_cons_cons]
      -- The first pair decides, or the offsets from the second on do.
      by_cases decreasing : next < offset
      · simp [decreasing, Nat.not_le.mpr decreasing]
      · simp [decreasing, Nat.le_of_not_lt decreasing]

/-- Every offset of an ordered table lies at or before the end of the input. -/
theorem Ordered.head_le {length : Nat} {offsets : List Nat} (ordered : Ordered length offsets) :
    offsets.headD length ≤ length := by
  -- Each offset is at most the next one, and the last is at most the end.
  induction offsets with
  | nil => exact Nat.le_refl _
  | cons offset rest ih => exact Nat.le_trans ordered.1 (ih ordered.2)

/-- The span of an offset runs to the next one, or to the end of the input. -/
theorem spansBetween_cons (length offset : Nat) (rest : List Nat) :
    spansBetween length (offset :: rest) =
      ⟨offset, rest.headD length⟩ :: spansBetween length rest := by
  cases rest <;> rfl

/-- Offsets cut the input exactly when they are ordered and begin where the fixed part ends. -/
theorem spansOfOffsets_eq_ok {offsets : List Nat} {fixedEnd length : Nat} {spans : List Span} :
    spansOfOffsets offsets fixedEnd length = .ok spans ↔
      (∀ first, offsets.head? = some first → first = fixedEnd) ∧ Ordered length offsets ∧
        spansBetween length offsets = spans := by
  rw [spansOfOffsets, ordered_iff]
  cases offsets with
  | nil => simp [firstDecrease?, spansBetween]
  | cons offset rest =>
    -- The three checks of a table are made one after the other.
    by_cases atEnd : offset = fixedEnd
    · cases decreasing : firstDecrease? (offset :: rest) with
      | some other => simp [atEnd]
      | none =>
        cases past : (offset :: rest).getLast?.any (length < ·) <;> simp [atEnd]
    · simp [atEnd]

/-- A member of one size takes up that size in the fixed part of its parent. -/
theorem Schema.fixedPart_of_fixed {schema : Schema} {size : Nat}
    (fixed : schema.fixedSize = some size) : schema.fixedPart = size := by
  unfold fixedSize at fixed
  simp [fixedPart, Sizes.fixedPart, fixed]

/-- A member of varying size takes up an offset in the fixed part of its parent. -/
theorem Schema.fixedPart_of_varying {schema : Schema} (varying : schema.fixedSize = none) :
    schema.fixedPart = bytesPerOffset := by
  unfold fixedSize at varying
  simp [fixedPart, Sizes.fixedPart, varying]

/-- A piece of a field: inline with the size of the field, or of any size behind an offset. -/
def Field.Holds (field : Field) (piece : Piece) : Prop :=
  piece.isVariable = !field.schema.isFixedSize ∧
    ∀ size, field.schema.fixedSize = some size → piece.bytes.length = size

/-- The bytes of spans that lie within the input. -/
def CutInto (bytes : Bytes) (spans : List Span) (slices : List Bytes) : Prop :=
  List.Forall₂ (fun span slice => span.start ≤ span.stop ∧ span.stop ≤ bytes.length ∧
    bytes.slice span.start span.stop = slice) spans slices

/-- What a field reads as its own inline bytes. -/
theorem Field.holds_inline {field : Field} {size : Nat} (fixed : field.schema.fixedSize = some size)
    {bytes : Bytes} (sized : bytes.length = size) : field.Holds ⟨false, bytes⟩ := by
  refine ⟨by simp [Schema.isFixedSize, fixed], ?_⟩
  intro other same
  rw [fixed] at same
  exact sized.trans (Option.some.inj same)

/-- What a field of varying size reads by its offset. -/
theorem Field.holds_variable {field : Field} (varying : field.schema.fixedSize = none)
    (bytes : Bytes) : field.Holds ⟨true, bytes⟩ :=
  ⟨by simp [Schema.isFixedSize, varying], by simp [varying]⟩

/--
Reading the fields of a container from ordered offsets: the pieces that are found make up the fixed
part from the position on, and the variable part from the first of the offsets on.
-/
theorem fieldSpans_sound (bytes : Bytes) (fixedEnd : Nat) {fields : List Field} {position : Nat}
    {offsets : List Nat} (read : fieldOffsets bytes fields position = .ok offsets)
    (ordered : Ordered bytes.length offsets)
    (room : position + Schema.fixedEnd fields ≤ bytes.length) :
    ∃ pieces, List.Forall₂ Field.Holds fields pieces ∧
      CutInto bytes (fieldSpans fixedEnd fields position (spansBetween bytes.length offsets))
        (pieces.map Piece.bytes) ∧
      (∀ start ∈ offsets, start ≤ maxOffset) ∧
      Piece.starts (offsets.headD bytes.length) pieces = offsets ∧
      Piece.front (offsets.headD bytes.length) pieces =
        (bytes.drop position).take (Schema.fixedEnd fields) ∧
      Piece.back pieces = bytes.drop (offsets.headD bytes.length) := by
  induction fields generalizing position offsets with
  | nil =>
    obtain rfl := Except.ok.inj read
    exact ⟨[], .nil, .nil, by simp, rfl, by simp [Piece.front, Schema.fixedEnd],
      by simp [Piece.back]⟩
  | cons field rest ih =>
    unfold Schema.fixedEnd at room ⊢
    cases fixed : field.schema.fixedSize with
    | some size =>
      rw [Schema.fixedPart_of_fixed fixed] at room ⊢
      simp only [fieldOffsets, fixed] at read
      -- An inline field is cut out in place, and the offsets are left for the fields after it.
      obtain ⟨pieces, each, cut, small, starts, front, back⟩ := ih read ordered (by omega)
      have sized : ((bytes.drop position).take size).length = size := by
        simp only [List.length_take, List.length_drop]
        omega
      refine ⟨⟨false, (bytes.drop position).take size⟩ :: pieces,
        .cons (Field.holds_inline fixed sized) each, ?_, small,
        by rw [Piece.starts, if_neg (by simp), starts], ?_,
        by simp [Piece.back, back]⟩
      · simp only [fieldSpans, fixed, List.map_cons]
        exact .cons ⟨Nat.le_add_right _ _, by simp only; omega, bytes.slice_add position size⟩ cut
      · rw [Piece.front, if_neg (by simp), front, ← List.drop_drop, ← List.take_add]
    | none =>
      rw [Schema.fixedPart_of_varying fixed] at room ⊢
      simp only [fieldOffsets, fixed, bind_eq_ok, pure_eq_ok, Except.ok.injEq] at read
      obtain ⟨offset, own, others, read, rfl⟩ := read
      obtain ⟨fits, spelled⟩ := readOffset_eq_ok.mp own
      obtain ⟨pieces, each, cut, small, starts, front, back⟩ := ih read ordered.2 (by omega)
      have inside := ordered.2.head_le
      -- The piece of this field runs from its offset to where the next piece starts.
      have next : offset + (bytes.slice offset (others.headD bytes.length)).length =
          others.headD bytes.length := by
        rw [Bytes.length_slice inside]
        exact Nat.add_sub_cancel' ordered.1
      refine ⟨⟨true, bytes.slice offset (others.headD bytes.length)⟩ :: pieces,
        .cons (Field.holds_variable fixed _) each, ?_, by simpa using ⟨fits, small⟩, ?_, ?_, ?_⟩
      · simp only [fieldSpans, fixed, spansBetween_cons, List.headD_cons, List.tail_cons,
          List.map_cons]
        exact .cons ⟨ordered.1, inside, rfl⟩ cut
      · simp only [List.headD_cons, Piece.starts, if_true, next, starts]
      · simp only [List.headD_cons, Piece.front, if_true, next, front]
        rw [← spelled, ← List.drop_drop, ← List.take_add]
      · simp only [List.headD_cons, Piece.back, if_true, back]
        exact bytes.slice_append_drop ordered.1

/--
Reading the fields of a container from its assembled pieces: their own starts are found as the
offsets, and each piece is cut out again.
-/
theorem fieldSpans_complete (bytes : Bytes) (fixedEnd : Nat) {fields : List Field}
    {pieces : List Piece} (each : List.Forall₂ Field.Holds fields pieces) {position start : Nat}
    (front : (bytes.drop position).take (Piece.fixedEnd pieces) = Piece.front start pieces)
    (room : position + Piece.fixedEnd pieces ≤ bytes.length) (inside : start ≤ bytes.length)
    (back : bytes.drop start = Piece.back pieces)
    (fit : ∀ other ∈ Piece.starts start pieces, other ≤ maxOffset) :
    fieldOffsets bytes fields position = .ok (Piece.starts start pieces) ∧
      Ordered bytes.length (Piece.starts start pieces) ∧
      (Piece.starts start pieces).headD bytes.length = start ∧
      CutInto bytes
        (fieldSpans fixedEnd fields position
          (spansBetween bytes.length (Piece.starts start pieces))) (pieces.map Piece.bytes) := by
  induction each generalizing position start with
  | nil =>
    -- Behind the last piece there is nothing left of the input.
    have past := List.drop_eq_nil_iff.mp back
    exact ⟨rfl, trivial, Nat.le_antisymm past inside, .nil⟩
  | @cons field piece fields pieces head each ih =>
    obtain ⟨kind, sized⟩ := head
    cases fixed : field.schema.fixedSize with
    | some size =>
      have inline : piece.isVariable = false := by simp [kind, Schema.isFixedSize, fixed]
      have sized := sized size fixed
      have width : Piece.fixedEnd (piece :: pieces) = size + Piece.fixedEnd pieces := by
        simp [Piece.fixedEnd, Piece.width, inline, sized]
      rw [width] at room front
      rw [Piece.front, if_neg (by simp [inline]), List.take_add, List.drop_drop] at front
      have long : ((bytes.drop position).take size).length = piece.bytes.length := by
        simp only [List.length_take, List.length_drop]
        omega
      -- What is written in front is split into the own bytes of the piece and the rest.
      obtain ⟨own, rest⟩ := List.append_inj front long
      simp only [Piece.back, inline, Bool.false_eq_true, if_false] at back
      simp only [Piece.starts, inline, Bool.false_eq_true, if_false] at fit
      obtain ⟨read, ordered, first, cut⟩ := ih rest (by omega) inside back fit
      simp only [fieldOffsets, fieldSpans, fixed, Piece.starts, inline, Bool.false_eq_true,
        if_false, List.map_cons]
      refine ⟨read, ordered, first, .cons ⟨Nat.le_add_right _ _, by simp only; omega, ?_⟩ cut⟩
      rw [Bytes.slice_add, own]
    | none =>
      have varying : piece.isVariable = true := by simp [kind, Schema.isFixedSize, fixed]
      have width : Piece.fixedEnd (piece :: pieces) = bytesPerOffset + Piece.fixedEnd pieces := by
        simp [Piece.fixedEnd, Piece.width, varying]
      rw [width] at room front
      rw [Piece.front, if_pos varying, List.take_add, List.drop_drop] at front
      have long : ((bytes.drop position).take bytesPerOffset).length =
          (littleEndian bytesPerOffset start).length := by
        simp only [List.length_take, List.length_drop, littleEndian_length]
        omega
      obtain ⟨own, rest⟩ := List.append_inj front long
      simp only [Piece.back, varying, if_true] at back
      simp only [Piece.starts, varying, if_true, List.mem_cons, forall_eq_or_imp] at fit
      -- The next piece starts where this one ends.
      have behind := congrArg List.length back
      simp only [List.length_drop, List.length_append] at behind
      have later : bytes.drop (start + piece.bytes.length) = Piece.back pieces := by
        rw [← List.drop_drop, back, List.drop_left]
      obtain ⟨read, ordered, first, cut⟩ := ih rest (by omega) (by omega) later fit.2
      simp only [fieldOffsets, fieldSpans, fixed, Piece.starts, varying, if_true,
        readOffset_eq_ok.mpr ⟨fit.1, own⟩, read, ok_bind, pure_eq_ok, spansBetween_cons,
        List.headD_cons, List.tail_cons, List.map_cons, first, Ordered]
      refine ⟨trivial, ⟨Nat.le_add_right _ _, ordered⟩, trivial,
        .cons ⟨Nat.le_add_right _ _, by simp only; omega, ?_⟩ cut⟩
      rw [Bytes.slice_add, back, List.take_left]

/-- The fixed part of pieces of fields is as wide as the fields say. -/
theorem Field.fixedEnd_eq {fields : List Field} {pieces : List Piece}
    (each : List.Forall₂ Field.Holds fields pieces) :
    Piece.fixedEnd pieces = Schema.fixedEnd fields := by
  induction each with
  | nil => rfl
  | @cons field piece fields pieces head _ ih =>
    obtain ⟨kind, sized⟩ := head
    -- A piece is as wide as the schema of its field says.
    have own : piece.width = field.schema.fixedPart := by
      cases fixed : field.schema.fixedSize with
      | none =>
        simp [Piece.width, kind, Schema.isFixedSize, fixed, Schema.fixedPart_of_varying fixed]
      | some size =>
        simp [Piece.width, kind, Schema.isFixedSize, fixed, Schema.fixedPart_of_fixed fixed,
          sized size fixed]
    rw [Piece.fixedEnd, Schema.fixedEnd, own, ih]

/-- Pieces without starts are all inline. -/
theorem Piece.inline_of_starts {pieces : List Piece} {position : Nat}
    (none : Piece.starts position pieces = []) : ∀ piece ∈ pieces, piece.isVariable = false := by
  induction pieces with
  | nil => simp
  | cons piece rest ih =>
    -- A variable piece would have a start.
    cases kind : piece.isVariable with
    | true => simp [starts, kind] at none
    | false =>
      simp only [starts, kind, Bool.false_eq_true, if_false] at none
      simpa [kind] using ih none

/--
The spans of a container cut its input into pieces of the fields which join to the input again, if
the input holds the fixed part, and nothing else where all fields are inline.
-/
theorem containerSpans_sound {fields : List Field} {bytes : Bytes} {spans : List Span}
    (read : containerSpans fields bytes = .ok spans)
    (room : Schema.fixedEnd fields ≤ bytes.length)
    (whole : (∀ field ∈ fields, field.schema.isFixedSize) →
      bytes.length = Schema.fixedEnd fields) :
    ∃ pieces, List.Forall₂ Field.Holds fields pieces ∧
      CutInto bytes spans (pieces.map Piece.bytes) ∧ Piece.OffsetsFit pieces ∧
      Piece.assemble pieces = bytes := by
  simp only [containerSpans, bind_eq_ok, pure_eq_ok, Except.ok.injEq] at read
  obtain ⟨offsets, listed, pending, checked, rfl⟩ := read
  obtain ⟨first, ordered, rfl⟩ := spansOfOffsets_eq_ok.mp checked
  obtain ⟨pieces, each, cut, small, starts, front, back⟩ :=
    fieldSpans_sound bytes _ listed ordered (by rwa [Nat.zero_add])
  have width := Field.fixedEnd_eq each
  -- The variable part begins right after the fixed part, also where it is empty.
  have begins : offsets.headD bytes.length = Piece.fixedEnd pieces := by
    cases offsets with
    | nil =>
      -- Without offsets all fields are inline, and then the length is exact.
      have inline := Piece.inline_of_starts starts
      rw [width, List.headD_nil]
      apply whole
      intro field member
      obtain ⟨i, bound, rfl⟩ := List.getElem_of_mem member
      have held := each.get bound (each.length_eq ▸ bound)
      have kind := inline _ (List.getElem_mem (each.length_eq ▸ bound))
      simpa [kind] using held.1
    | cons offset rest => exact (first offset rfl).trans width.symm
  rw [begins] at starts front back
  refine ⟨pieces, each, cut, ?_, ?_⟩
  · rw [Piece.OffsetsFit, starts]
    exact small
  · rw [Piece.assemble, front, back, width, List.drop_zero, List.take_append_drop]

/-- The spans of a container cut the assembled pieces of its fields out again. -/
theorem containerSpans_assemble {fields : List Field} {pieces : List Piece}
    (each : List.Forall₂ Field.Holds fields pieces) (fit : Piece.OffsetsFit pieces) :
    ∃ spans, containerSpans fields (Piece.assemble pieces) = .ok spans ∧
      CutInto (Piece.assemble pieces) spans (pieces.map Piece.bytes) := by
  have width := Field.fixedEnd_eq each
  have front : ((Piece.assemble pieces).drop 0).take (Piece.fixedEnd pieces) =
      Piece.front (Piece.fixedEnd pieces) pieces := by
    rw [List.drop_zero, Piece.assemble, List.take_left' (Piece.length_front _ _)]
  have back : (Piece.assemble pieces).drop (Piece.fixedEnd pieces) = Piece.back pieces := by
    rw [Piece.assemble, List.drop_left' (Piece.length_front _ _)]
  have room : Piece.fixedEnd pieces ≤ (Piece.assemble pieces).length := by
    rw [Piece.length_assemble]
    exact Nat.le_add_right _ _
  obtain ⟨read, ordered, first, cut⟩ :=
    fieldSpans_complete _ (Piece.fixedEnd pieces) each front (by rwa [Nat.zero_add]) room back fit
  refine ⟨_, ?_, cut⟩
  -- The first offset that was written is where the fixed part ends.
  have begins : ∀ start, (Piece.starts (Piece.fixedEnd pieces) pieces).head? = some start →
      start = Piece.fixedEnd pieces := by
    intro start head
    simpa [List.headD_eq_head?_getD, head] using first
  simp only [containerSpans, read, ok_bind, ← width,
    spansOfOffsets_eq_ok.mpr ⟨begins, ordered, rfl⟩, pure_eq_ok]

end Ssz
