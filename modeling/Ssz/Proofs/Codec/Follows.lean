import Ssz.Proofs.Codec.Accepts
import Ssz.Proofs.Codec.Guarded

/-! The steps of a decoder that checks itself end as those of the decoder that does not. -/

namespace Ssz.Guarded

variable {α β γ : Type}

/-- A checked computation ends as the unchecked one does, and neither goes beyond a limit. -/
def Follows (guarded : Guarded α) (plain : Except DecodeError α) : Prop :=
  guarded = lift plain ∧ ∀ exceeded, plain ≠ .error (.limit exceeded)

namespace Follows

/-- The same result follows itself. -/
theorem ok (value : α) : Follows (.ok value) (.ok value) :=
  ⟨rfl, nofun⟩

/-- The same refusal follows itself, if it names a fault of the input. -/
theorem refuse {fault : DecodeError} (named : ∀ exceeded, fault ≠ .limit exceeded) :
    Follows (Guarded.refuse fault : Guarded α) (.error fault) :=
  ⟨rfl, fun exceeded same => named exceeded (Except.error.inj same)⟩

/-- What needs no check follows itself, if it names a fault of the input. -/
theorem lift {plain : Except DecodeError α}
    (named : ∀ exceeded, plain ≠ .error (.limit exceeded)) : Follows (Guarded.lift plain) plain :=
  ⟨rfl, named⟩

/-- Two steps follow two steps, if the second one does so on every result of the first. -/
theorem bind {guarded : Guarded α} {plain : Except DecodeError α} {next : α → Guarded β}
    {plainNext : α → Except DecodeError β} (first : Follows guarded plain)
    (later : ∀ value, plain = .ok value → Follows (next value) (plainNext value)) :
    Follows (guarded >>= next) (plain >>= plainNext) := by
  obtain ⟨rfl, named⟩ := first
  cases plain with
  | ok value => exact later value rfl
  | error fault => exact refuse fun exceeded same => named exceeded (congrArg _ same)

/-- A step for each member follows a step for each member, if each step does. -/
theorem mapM {step : γ → Guarded α} {plainStep : γ → Except DecodeError α} {members : List γ}
    (each : ∀ member ∈ members, Follows (step member) (plainStep member)) :
    Follows (members.mapM step) (members.mapM plainStep) := by
  -- Both evaluate the members in order, so they stop at the same one.
  induction members with
  | nil => exact ok []
  | cons member rest ih =>
    rw [List.mapM_cons, List.mapM_cons]
    refine (each member (by simp)).bind fun result _ => ?_
    refine (ih fun other inside => each other (by simp [inside])).bind fun results _ => ?_
    exact ok (result :: results)

/-- Both sides take the same side of a decision. -/
theorem ite {condition : Prop} [Decidable condition] {first second : Guarded α}
    {plainFirst plainSecond : Except DecodeError α}
    (holds : condition → Follows first plainFirst)
    (fails : ¬ condition → Follows second plainSecond) :
    Follows (if condition then first else second)
      (if condition then plainFirst else plainSecond) := by
  split
  · exact holds ‹_›
  · exact fails ‹_›

end Follows

section Steps

variable {bytes : Bytes} {depth : Nat}

/-- A number below two to the 64th is a word. -/
theorem word_of_lt {value : Nat} (small : value < 2 ^ 64) : word value = .ok value :=
  if_pos (Nat.le_pred_of_lt small)

/-- A smaller number can be taken away. -/
theorem minus_of_le {total part : Nat} (fits : part ≤ total) :
    minus total part = .ok (total - part) :=
  if_pos fits

/-- A slice within its input is taken. -/
theorem slice_of_le {start stop : Nat} (ordered : start ≤ stop) (inside : stop ≤ bytes.length) :
    slice bytes start stop = .ok (bytes.slice start stop) :=
  if_pos ⟨ordered, inside⟩

variable (short : bytes.length < 2 ^ 60)

include short in
/-- An offset within the input is read from its four bytes, with each step checked or not. -/
theorem readOffset_eq (position : Nat) (room : position + bytesPerOffset ≤ bytes.length) :
    readOffset bytes position =
        .ok (ofLittleEndian (bytes.slice position (position + bytesPerOffset))) ∧
      Ssz.readOffset bytes position =
        .ok (ofLittleEndian (bytes.slice position (position + bytesPerOffset))) := by
  -- The four bytes are there, so neither version finds the input too short.
  have sized : (bytes.slice position (position + bytesPerOffset)).length = bytesPerOffset := by
    rw [Bytes.length_slice room, Nat.add_sub_cancel_left]
  refine ⟨?_, by rw [Ssz.readOffset, if_pos sized]⟩
  rw [readOffset, word_of_lt (by omega), ok_bind, slice_of_le (Nat.le_add_right _ _) room]
  rfl

/-- The nodes of a tree with room for them are filled in. -/
theorem follows_fill {nodes : List Tree} (shallow : depth < 64) (fits : nodes.length ≤ 2 ^ depth) :
    Follows (fill nodes depth) (Tree.ofDecoded nodes depth) := by
  rw [fill, Tree.ofDecoded, Tree.fill_eq_ok shallow fits]
  exact .ok _

/-- The bytes of a tree with room for them are filled in. -/
theorem follows_fillBytes (shallow : depth < 64) (fits : (bytes.length + 31) / 32 ≤ 2 ^ depth) :
    Follows (fillBytes bytes depth) (Tree.ofDecodedBytes bytes depth) :=
  follows_fill shallow (by simpa using fits)

/-- The length of an input is checked against sizes that are words. -/
theorem follows_checkLength {schema : Schema} (fits : schema.minSize ≤ maxWord) (bytes : Bytes) :
    Follows (checkLength schema bytes) (Ssz.checkLength schema bytes) := by
  have least : word schema.minSize = .ok schema.minSize := if_pos fits
  simp only [checkLength, Ssz.checkLength, least, ok_bind]
  refine .ite (fun _ => .refuse (by simp)) fun enough => ?_
  cases fixed : schema.fixedSize with
  | none => exact .ok ()
  | some size =>
    -- A fixed size is also the least one, which is a word.
    have same : schema.minSize = size := schema.least_eq_fixed size fixed
    have own : word size = .ok size := if_pos (same ▸ fits)
    simp only [own, ok_bind]
    refine .ite (fun longer => ?_) fun _ => .ok ()
    rw [minus_of_le (Nat.le_of_lt longer), ok_bind]
    exact .refuse (by simp)

/-- A number of elements of a short input is checked, and reported as an offset that is a word. -/
theorem follows_checkCount (expected : Count) {count : Nat} (few : count < 2 ^ 60) :
    Follows (checkCount expected count) (expected.check count) := by
  -- Only a wrong number of elements is turned into an offset, and a short input has too few to
  -- overflow.
  cases expected with
  | atMost max => exact .ite (fun _ => .refuse (by simp)) fun _ => .ok ()
  | exactly length =>
    refine .ite (fun _ => .ok ()) fun _ => ?_
    rw [word_of_lt (by unfold bytesPerOffset; omega), ok_bind]
    exact .refuse (by simp)

/-- Truth values are checked byte by byte. -/
theorem follows_checkBooleans (bytes : Bytes) :
    Follows (lift (checkBooleans bytes)) (checkBooleans bytes) := by
  refine .lift fun exceeded => ?_
  unfold checkBooleans
  split <;> simp

/-- Offsets are only compared. -/
theorem follows_spansOfOffsets (offsets : List Nat) (fixedEnd length : Nat) :
    Follows (lift (spansOfOffsets offsets fixedEnd length))
      (spansOfOffsets offsets fixedEnd length) := by
  -- Spans are cut without any arithmetic that could leave a word, so nothing is trapped.
  refine .lift fun exceeded => ?_
  unfold spansOfOffsets
  split
  · simp
  · split
    · simp
    · split <;> simp

/-- The padding of an input that is not empty is checked in its last byte. -/
theorem follows_checkPadding (some : 0 < bytes.length) (length : Nat) :
    Follows (checkPadding bytes length) (Ssz.checkPadding bytes length) := by
  -- With a byte at hand the last position exists, and the shift is by less than eight.
  refine .ite (fun _ => .ok ()) fun _ => ?_
  have last : bytes.getLast? = .some (bytes.getLast (List.ne_nil_of_length_pos some)) :=
    List.getLast?_eq_some_getLast _
  have found := List.getLast?_eq_getElem? ▸ last
  have narrow : shiftBy (length % 8) 8 = .ok (length % 8) := if_pos (Nat.mod_lt _ (by decide))
  simp only [minus_of_le (Nat.succ_le_of_lt some), ok_bind, byteAt, found, last, narrow]
  exact .ite (fun _ => .refuse (by simp)) fun _ => .ok ()

include short in
/-- A bitlist is read from a short input into a tree with room for as many bits as it may have. -/
theorem follows_readBitlist {maxLength : Nat} (shallow : depth < 64)
    (fits : ∀ length, length ≤ maxLength → (length + 255) / 256 ≤ 2 ^ depth) :
    Follows (readBitlist bytes maxLength depth) (decodeBitlist bytes maxLength depth) := by
  unfold readBitlist decodeBitlist
  cases ends : bytes.getLast? with
  | none => exact .refuse (by simp)
  | some last =>
    refine .ite (fun _ => .refuse (by simp)) fun marked => ?_
    have nonempty : 1 ≤ bytes.length := by
      cases bytes with
      | nil => cases ends
      | cons => simp
    -- The highest bit of a byte other than zero is at most the seventh.
    have highest : last.toNat.log2 < 8 := by
      have bound := last.toNat_lt
      have nonzero : last.toNat ≠ 0 := fun zero => marked (UInt8.toNat_inj.mp zero)
      exact (Nat.log2_lt nonzero).mpr bound
    have sentinel : minus 7 (leadingZeros last) = .ok last.toNat.log2 := by
      rw [leadingZeros, if_neg marked, minus_of_le (by omega)]
      congr 1
      omega
    simp only [sentinel, ok_bind, minus_of_le nonempty, Nat.mul_comm _ 8,
      word_of_lt (show 8 * (bytes.length - 1) < 2 ^ 64 by omega),
      word_of_lt (show 8 * (bytes.length - 1) + last.toNat.log2 < 2 ^ 64 by omega),
      shiftBy, if_pos highest]
    refine .ite (fun _ => .refuse (by simp)) fun bounded => ?_
    have room := fits _ (Nat.le_of_not_lt bounded)
    -- The cut leaves no more bytes than the bits before the mark take up.
    refine (follows_fillBytes shallow ?_).bind fun content _ => .ok _
    refine Nat.le_trans ?_ room
    rw [List.length_take]
    omega

include short in
/-- The spans of elements of one size are laid out in words. -/
theorem follows_fixedSpans {size : Nat} (positive : 0 < size) (expected : Count) :
    Follows (fixedSpans bytes size expected) (Ssz.fixedSpans bytes size expected) := by
  have divisible : size ≠ 0 := Nat.ne_of_gt positive
  simp only [fixedSpans, Ssz.fixedSpans, remainder, quotient, if_neg divisible, ok_bind]
  refine .ite (fun _ => .refuse (by simp)) fun whole => ?_
  have few := Nat.div_le_self bytes.length size
  refine (follows_checkCount expected (by omega)).bind fun _ _ => ?_
  -- The last span ends where the input does, and no other one ends later.
  have each : ∀ entry ∈ List.range (bytes.length / size),
      (do return ⟨← word (entry * size), ← word ((← word (entry + 1)) * size)⟩ : Guarded Span) =
        .ok ⟨entry * size, (entry + 1) * size⟩ := by
    intro entry member
    have below : (entry + 1) * size ≤ bytes.length :=
      Nat.le_trans (Nat.mul_le_mul_right size (List.mem_range.mp member))
        (Nat.div_mul_le_self bytes.length size)
    have start : entry * size ≤ (entry + 1) * size := Nat.mul_le_mul_right size (Nat.le_succ entry)
    have early := List.mem_range.mp member
    rw [word_of_lt (by omega), word_of_lt (by omega), ok_bind, ok_bind, word_of_lt (by omega)]
    rfl
  rw [mapM_of_each each]
  exact .ok _

include short in
/-- The entries of a table that lies within the input are read one after the other. -/
theorem readTable_eq {count : Nat} (position : Nat)
    (room : position + count * bytesPerOffset ≤ bytes.length) :
    readTable count (bytes.drop position) = .ok ((List.range count).map fun entry =>
      ofLittleEndian (bytes.slice (position + entry * bytesPerOffset)
        (position + entry * bytesPerOffset + bytesPerOffset))) := by
  induction count generalizing position with
  | zero => rfl
  | succ count ih =>
    rw [Nat.succ_mul] at room
    -- The first entry stands at the position, and the others follow from the next one on.
    have later := ih (position + bytesPerOffset) (by omega)
    have within : (bytes.drop position).length < 2 ^ 60 := by
      rw [List.length_drop]
      omega
    have own := (readOffset_eq within 0 (by rw [List.length_drop]; omega)).2
    simp only [Bytes.slice_add, List.drop_drop, Nat.add_zero] at own later ⊢
    rw [readTable, own, ok_bind, List.drop_drop, later, List.range_succ_eq_map]
    simp [List.map_map, Function.comp_def, Nat.succ_mul, Nat.add_assoc, Nat.add_comm bytesPerOffset]

include short in
/-- A table within the input is read entry by entry. -/
theorem follows_readTable {count : Nat} (room : count * bytesPerOffset ≤ bytes.length) :
    Follows ((List.range count).mapM fun entry => do
        readOffset bytes (← word (entry * bytesPerOffset)))
      (readTable count bytes) := by
  -- An entry of the table lies within the input, so its position is a word and its bytes are there.
  have plain := readTable_eq short 0 (by rwa [Nat.zero_add])
  have each : ∀ entry ∈ List.range count,
      (do readOffset bytes (← word (entry * bytesPerOffset)) : Guarded Nat) =
        .ok (ofLittleEndian (bytes.slice (entry * bytesPerOffset)
          (entry * bytesPerOffset + bytesPerOffset))) := by
    intro entry member
    have inside : entry * bytesPerOffset + bytesPerOffset ≤ bytes.length :=
      Nat.le_trans (Nat.succ_mul entry _ ▸ Nat.mul_le_mul_right _ (List.mem_range.mp member)) room
    rw [word_of_lt (by omega), ok_bind]
    exact (readOffset_eq short _ inside).1
  simp only [List.drop_zero, Nat.zero_add] at plain
  rw [mapM_of_each each, plain]
  exact .ok _

include short in
/-- The spans of variable-size elements are cut by a table that lies within the input. -/
theorem follows_variableSpans (expected : Count) :
    Follows (variableSpans bytes expected) (Ssz.variableSpans bytes expected) := by
  -- The first offset tells where the table ends, and that was compared with the input before
  -- reading on.
  unfold variableSpans Ssz.variableSpans
  refine .ite (fun _ => ?_) fun _ => .ite (fun _ => .refuse (by simp)) fun long => ?_
  · exact (follows_checkCount expected (by decide)).bind fun _ _ => .ok []
  · obtain ⟨guarded, plain⟩ := readOffset_eq short 0 (by omega)
    simp only [guarded, plain, ok_bind]
    generalize ofLittleEndian _ = first
    refine .ite (fun _ => .refuse (by simp)) fun _ => ?_
    refine .ite (fun _ => .refuse (by simp)) fun inside => ?_
    have counted : quotient first bytesPerOffset = .ok (first / bytesPerOffset) := rfl
    have few := Nat.div_le_self first bytesPerOffset
    rw [counted, ok_bind]
    refine (follows_checkCount expected (by omega)).bind fun _ _ => ?_
    have room := Nat.div_mul_le_self first bytesPerOffset
    refine (follows_readTable short (by omega)).bind fun offsets _ => ?_
    exact follows_spansOfOffsets offsets first bytes.length

include short in
/-- The spans of elements are cut according to whether these have one size. -/
theorem follows_elementSpans {element : Schema}
    (positive : ∀ size, element.fixedSize = some size → 0 < size) (expected : Count) :
    Follows (elementSpans element bytes expected) (Ssz.elementSpans element bytes expected) := by
  unfold elementSpans Ssz.elementSpans
  cases fixed : element.fixedSize with
  | some size => exact follows_fixedSpans short (positive size fixed) expected
  | none => exact follows_variableSpans short expected

end Steps

end Ssz.Guarded
