import Ssz.Proofs.Codec.Elements

/-! Offset tables: a table and the spans that it cuts out take up each byte of their input once. -/

namespace Ssz

/-- The positions of the bytes of a span, in order. -/
def Span.positions (span : Span) : List Nat :=
  List.range' span.start (span.stop - span.start)

/-- The span of an entry of the table that an input begins with. -/
def tableEntry (entry : Nat) : Span :=
  ⟨entry * bytesPerOffset, (entry + 1) * bytesPerOffset⟩

section Offsets

variable {length fixedEnd : Nat} {offsets : List Nat} {spans : List Span}

/-- Offsets are in order when none is less than one before it and the last is in the input. -/
theorem ordered_iff_pairwise : Ordered length offsets ↔
    offsets.Pairwise (· ≤ ·) ∧ ∀ last, offsets.getLast? = some last → last ≤ length := by
  induction offsets with
  | nil => simp [Ordered]
  | cons offset rest ih =>
    cases rest with
    | nil => simp [Ordered]
    | cons next rest =>
      rw [Ordered, ih, @List.pairwise_cons _ _ offset, List.getLast?_cons_cons]
      constructor
      · rintro ⟨first, sorted, last⟩
        refine ⟨⟨?_, sorted⟩, last⟩
        intro other member
        -- The order of neighbours reaches every later offset through the next one.
        rcases List.mem_cons.mp member with rfl | behind
        · exact first
        · exact Nat.le_trans first (List.rel_of_pairwise_cons sorted behind)
      · rintro ⟨⟨below, sorted⟩, last⟩
        exact ⟨below next List.mem_cons_self, sorted, last⟩

/-- Each span between offsets stops where the next one starts. -/
theorem isChain_spansBetween (length : Nat) (offsets : List Nat) :
    (spansBetween length offsets).IsChain fun first second => first.stop = second.start := by
  -- A span ends at the next offset, which is where the next span begins.
  induction offsets with
  | nil => exact .nil
  | cons offset rest ih =>
    rw [spansBetween_cons]
    cases rest with
    | nil => exact .singleton _
    | cons next rest =>
      rw [spansBetween_cons] at ih ⊢
      exact .cons_cons rfl ih

/-- Spans between ordered offsets lie in the input. -/
theorem Ordered.inside (ordered : Ordered length offsets) :
    ∀ span ∈ spansBetween length offsets, span.start ≤ span.stop ∧ span.stop ≤ length := by
  induction offsets with
  | nil => simp [spansBetween]
  | cons offset rest ih =>
    obtain ⟨first, later⟩ := ordered
    rw [spansBetween_cons]
    intro span member
    -- A stop is the next offset, which the last one keeps from passing the end.
    rcases List.mem_cons.mp member with rfl | behind
    · exact ⟨first, later.head_le⟩
    · exact ih later span behind

/-- Adjacent runs of positions join. -/
theorem range'_append_of_le {start middle stop : Nat} (first : start ≤ middle)
    (second : middle ≤ stop) :
    List.range' start (middle - start) ++ List.range' middle (stop - middle) =
      List.range' start (stop - start) := by
  have joined := @List.range'_append_1 start (middle - start) (stop - middle)
  rw [show start + (middle - start) = middle by omega,
    show middle - start + (stop - middle) = stop - start by omega] at joined
  exact joined

/-- Spans between ordered offsets take up each position from the first offset to the end once. -/
theorem Ordered.positions {offset : Nat} {rest : List Nat}
    (ordered : Ordered length (offset :: rest)) :
    (spansBetween length (offset :: rest)).flatMap Span.positions =
      List.range' offset (length - offset) := by
  induction rest generalizing offset with
  | nil => exact List.append_nil _
  | cons next rest ih =>
    obtain ⟨first, later⟩ := ordered
    -- The first span goes up to the next offset, and the others go on from there.
    rw [spansBetween_cons, List.flatMap_cons, ih later]
    exact range'_append_of_le first later.head_le

end Offsets

section Tables

variable {bytes : Bytes} {offsets : List Nat}

/-- The entries of a table take up each position of it once. -/
theorem positions_tableEntries (count : Nat) :
    ((List.range count).map tableEntry).flatMap Span.positions =
      List.range' 0 (count * bytesPerOffset) := by
  induction count with
  | zero => rfl
  | succ count ih =>
    rw [List.range_succ, List.map_append, List.flatMap_append, ih]
    -- One more entry starts where the table ended before.
    have grown := range'_append_of_le (Nat.zero_le (count * bytesPerOffset))
      (Nat.mul_le_mul_right bytesPerOffset (Nat.le_succ count))
    rw [Nat.sub_zero, Nat.sub_zero] at grown
    rw [← grown]
    exact congrArg _ (List.append_nil _)

/-- An offset that is read lies in its input, as the number that its bytes spell. -/
theorem slice_of_readOffset {position offset : Nat}
    (read : readOffset bytes position = .ok offset) :
    position + bytesPerOffset ≤ bytes.length ∧
      ofLittleEndian (bytes.slice position (position + bytesPerOffset)) = offset := by
  rw [readOffset] at read
  split at read
  · rename_i sized
    refine ⟨?_, Except.ok.inj read⟩
    -- A slice of full width is one that does not pass the end.
    simp only [Bytes.slice, List.length_take, List.length_drop, bytesPerOffset] at sized ⊢
    omega
  · cases read

/-- The entries of a table are read one after the other. -/
theorem readOffset_of_readTable {count : Nat} {position : Nat}
    (read : readTable count (bytes.drop position) = .ok offsets) {entry offset : Nat}
    (found : offsets[entry]? = some offset) :
    readOffset bytes (position + entry * bytesPerOffset) = .ok offset := by
  induction count generalizing position offsets entry with
  | zero =>
    obtain rfl := Except.ok.inj read
    cases found
  | succ count ih =>
    simp only [readTable, bind_eq_ok, pure_eq_ok, Except.ok.injEq, List.drop_drop] at read
    obtain ⟨first, own, rest, later, rfl⟩ := read
    cases entry with
    | zero =>
      rw [readOffset_eq_ok, List.drop_zero] at own
      obtain rfl := Option.some.inj found
      rw [Nat.zero_mul, Nat.add_zero, readOffset_eq_ok]
      exact own
    | succ entry =>
      -- The rest of the table begins one entry further on.
      have behind := ih later found
      rwa [show position + bytesPerOffset + entry * bytesPerOffset =
        position + (entry + 1) * bytesPerOffset by rw [Nat.succ_mul]; omega] at behind

end Tables

/-- What it means that spans divide the input behind its fixed part among offsets. -/
structure DividesInput (offsets : List Nat) (fixedEnd length : Nat) (spans : List Span) :
    Prop where
  /-- There is one span for each offset, which starts there. -/
  starts : spans.map Span.start = offsets
  /-- Each span stops where the next one starts. -/
  adjacent : spans.IsChain fun first second => first.stop = second.start
  /-- No span stops before it starts, or past the end of the input. -/
  inside : ∀ span ∈ spans, span.start ≤ span.stop ∧ span.stop ≤ length
  /-- If there are any, they take up each position behind the fixed part once, in order. -/
  covers : offsets ≠ [] →
    spans.flatMap Span.positions = List.range' fixedEnd (length - fixedEnd)

/-- What it means that a table at the beginning of an input divides all of it. -/
structure TablesInput (bytes : Bytes) (expected : Count) (spans : List Span) (offsets : List Nat) :
    Prop where
  /-- There are as many entries as expected. -/
  counted : expected.check offsets.length = .ok ()
  /-- Each entry lies in the input, and its bytes spell the offset. -/
  entries : ∀ entry offset, offsets[entry]? = some offset →
    (tableEntry entry).stop ≤ bytes.length ∧
      ofLittleEndian (bytes.slice (tableEntry entry).start (tableEntry entry).stop) = offset
  /-- The spans divide what follows the table. -/
  divides : DividesInput offsets (offsets.length * bytesPerOffset) bytes.length spans
  /-- The entries and the spans together take up each position of the input once, in order. -/
  covers : ((List.range offsets.length).map tableEntry ++ spans).flatMap Span.positions =
    List.range bytes.length

section Partition

variable {offsets : List Nat} {fixedEnd length : Nat} {spans : List Span}

/-- Offsets cut an input if there are none, or they go up from the fixed part within the input. -/
theorem exists_spansOfOffsets_iff :
    (∃ spans, spansOfOffsets offsets fixedEnd length = .ok spans) ↔
      offsets = [] ∨ offsets.head? = some fixedEnd ∧ offsets.Pairwise (· ≤ ·) ∧
        ∀ last, offsets.getLast? = some last → last ≤ length := by
  simp only [spansOfOffsets_eq_ok, ordered_iff_pairwise, exists_and_left, exists_eq', and_true]
  cases offsets with
  | nil => simp
  | cons offset rest => simp

/-- The spans that are cut divide the input. -/
theorem dividesInput (cut : spansOfOffsets offsets fixedEnd length = .ok spans) :
    DividesInput offsets fixedEnd length spans := by
  obtain ⟨begins, ordered, rfl⟩ := spansOfOffsets_eq_ok.mp cut
  refine ⟨map_start_spansBetween length offsets, isChain_spansBetween length offsets,
    ordered.inside, ?_⟩
  intro nonempty
  obtain ⟨first, rest, rfl⟩ := List.exists_cons_of_ne_nil nonempty
  -- The first offset is checked to be the end of the fixed part.
  obtain rfl := begins first rfl
  exact ordered.positions

/-- The table of a nonempty input and the spans that it cuts out divide that input. -/
theorem tablesInput {bytes : Bytes} {expected : Count} (nonempty : bytes ≠ [])
    (read : variableSpans bytes expected = .ok spans) :
    ∃ offsets, TablesInput bytes expected spans offsets := by
  obtain ⟨count, offsets, checked, table, cut, room, empty⟩ := table_of_variableSpans read
  obtain rfl := length_readTable table
  have divides := dividesInput cut
  refine ⟨offsets, checked, ?_, divides, ?_⟩
  · intro entry offset found
    have read := @readOffset_of_readTable bytes offsets offsets.length 0 table entry offset found
    rw [Nat.zero_add] at read
    rw [tableEntry, Nat.succ_mul]
    exact slice_of_readOffset read
  · -- A table without entries would be that of an empty input.
    have entries : offsets ≠ [] := by
      intro none
      exact nonempty (List.length_eq_zero_iff.mp (empty (by rw [none, List.length_nil])))
    have joined := range'_append_of_le (Nat.zero_le _) room
    rw [List.flatMap_append, positions_tableEntries, divides.covers entries, List.range_eq_range']
    exact joined

end Partition

/--
Offset tables partition their input: offsets are taken exactly if they go up from the end of the
fixed part within the input, the spans cut by them divide what is behind the fixed part, and a table
that an input begins with divides all of it.
-/
theorem partitionsInput (offsets : List Nat) (fixedEnd length : Nat) (bytes : Bytes)
    (expected : Count) :
    ((∃ spans, spansOfOffsets offsets fixedEnd length = .ok spans) ↔
      offsets = [] ∨ offsets.head? = some fixedEnd ∧ offsets.Pairwise (· ≤ ·) ∧
        ∀ last, offsets.getLast? = some last → last ≤ length) ∧
    (∀ spans, spansOfOffsets offsets fixedEnd length = .ok spans →
      DividesInput offsets fixedEnd length spans) ∧
    (∀ spans, bytes ≠ [] → variableSpans bytes expected = .ok spans →
      ∃ offsets, TablesInput bytes expected spans offsets) :=
  ⟨exists_spansOfOffsets_iff, fun _ => dividesInput, fun _ => tablesInput⟩

/-- Two elements of a list may start at one offset, the first of which is then empty. -/
theorem partitionsInput_shared_start :
    variableSpans [12, 0, 0, 0, 12, 0, 0, 0, 13, 0, 0, 0, 7, 9] (.atMost 3) =
      .ok [⟨12, 12⟩, ⟨12, 13⟩, ⟨13, 14⟩] ∧
    DividesInput [12, 12, 13] 12 14 [⟨12, 12⟩, ⟨12, 13⟩, ⟨13, 14⟩] ∧
    ∃ offsets, TablesInput [12, 0, 0, 0, 12, 0, 0, 0, 13, 0, 0, 0, 7, 9] (.atMost 3)
      [⟨12, 12⟩, ⟨12, 13⟩, ⟨13, 14⟩] offsets := by
  have cut : variableSpans [12, 0, 0, 0, 12, 0, 0, 0, 13, 0, 0, 0, 7, 9] (.atMost 3) =
      .ok [⟨12, 12⟩, ⟨12, 13⟩, ⟨13, 14⟩] := rfl
  obtain ⟨-, divides, tables⟩ := partitionsInput [12, 12, 13] 12 14
    [12, 0, 0, 0, 12, 0, 0, 0, 13, 0, 0, 0, 7, 9] (.atMost 3)
  exact ⟨cut, divides _ rfl, tables _ (List.cons_ne_nil _ _) cut⟩

end Ssz
