import Ssz.Codec.Decode
import Ssz.Codec.Encode
import Ssz.Proofs.Bits
import Ssz.Proofs.Checked

/-! The sentinel bit of bitlists and the padding of bitvectors, written and checked. -/

namespace Ssz

namespace Bytes

/-- The bits of a byte string up to a length. -/
def bitsUpTo (bytes : Bytes) (length : Nat) : List Bool :=
  (List.range length).map bytes.bitAt

/-- There are as many bits as asked for. -/
@[simp] theorem length_bitsUpTo (bytes : Bytes) (length : Nat) :
    (bytes.bitsUpTo length).length = length := by
  simp [bitsUpTo]

/-- Below the length the bits are those of the byte string, and there are none from there on. -/
theorem getD_bitsUpTo (bytes : Bytes) (length i : Nat) :
    (bytes.bitsUpTo length).getD i false = if i < length then bytes.bitAt i else false := by
  rw [bitsUpTo, List.getD_eq_getElem?_getD, List.getElem?_map]
  by_cases within : i < length
  · simp [within]
  · simp [within]

/-- Setting one bit of a byte string adds that bit and no other. -/
theorem bitAt_modify (bytes : Bytes) {position : Nat} (within : position / 8 < bytes.length)
    (i : Nat) :
    Bytes.bitAt (bytes.modify (position / 8) fun byte => byte ||| 1 <<< UInt8.ofNat (position % 8))
      i = (bytes.bitAt i || decide (i = position)) := by
  rw [bitAt, bitAt, List.getD_eq_getElem?_getD, List.getD_eq_getElem?_getD, List.getElem?_modify]
  -- The mask changes one byte, and in that byte one bit.
  by_cases same : position / 8 = i / 8
  · have place : (i % 8 = position % 8) = (i = position) := by
      apply propext
      omega
    have small : i % 8 < 8 := Nat.mod_lt _ (by decide)
    have inside : i / 8 < bytes.length := same ▸ within
    rw [List.getElem?_eq_getElem inside]
    simp only [same, if_true, Option.map_eq_map, Option.map_some, Option.getD_some, UInt8.toNat_or,
      Nat.testBit_or, testBit_mask (position % 8) (Nat.mod_lt _ (by decide)) (i % 8) small, place]
  · have other : i ≠ position := fun equal => same (by rw [equal])
    simp [same, other]

end Bytes

/-- The bits before a sentinel, then the sentinel, and clear bits after it. -/
theorem getD_marked (bits : List Bool) (i : Nat) :
    (bits ++ [true]).getD i false = (bits.getD i false || decide (i = bits.length)) := by
  rw [List.getD_eq_getElem?_getD, List.getD_eq_getElem?_getD, List.getElem?_append]
  -- The position lies before the sentinel, on it, or after it.
  rcases Nat.lt_trichotomy i bits.length with before | here | after
  · simp [before, Nat.ne_of_lt before]
  · simp [here]
  · have past : ¬ i < bits.length := by omega
    have beyond : i - bits.length ≠ 0 := by omega
    simp [past, Nat.ne_of_gt after, beyond]

/-- Marking the end of packed bits packs the bits together with a sentinel. -/
theorem markEnd_packBits (bits : List Bool) :
    markEnd (packBits bits) bits.length = packBits (bits ++ [true]) := by
  rw [eq_packBits_iff]
  -- Where the bits fill their bytes, one more byte is there to take the sentinel.
  have room : bits.length / 8 < (if bits.length % 8 = 0 then packBits bits ++ [0]
      else packBits bits).length := by
    split <;> simp <;> omega
  constructor
  · simp only [markEnd, List.length_modify, List.length_append, List.length_singleton]
    split
    · simp only [List.length_append, length_packBits, List.length_singleton]
      omega
    · rw [length_packBits]
      omega
  · intro i
    -- A padding byte that was added is zero, so it adds no bit.
    have kept : Bytes.bitAt
        (if bits.length % 8 = 0 then packBits bits ++ [0] else packBits bits) i =
        bits.getD i false := by
      rw [← bitAt_packBits bits i]
      split
      · simp only [Bytes.bitAt, List.getD_eq_getElem?_getD, List.getElem?_append]
        split
        · rfl
        · rename_i past
          rw [List.getElem?_eq_none (Nat.le_of_not_lt past), List.getElem?_singleton]
          split <;> simp
      · rfl
    rw [markEnd, Bytes.bitAt_modify _ room, kept, getD_marked]

/-- The bytes of a bitlist without the sentinel in the last one. -/
def unmarked (bytes : Bytes) (last : UInt8) : Bytes :=
  bytes.dropLast ++ [last ^^^ (1 <<< UInt8.ofNat last.toNat.log2)]

section Sentinel

variable {bytes : Bytes} {last : UInt8}

/-- The last byte is read at the position before the end. -/
theorem getD_of_getLast? (ends : bytes.getLast? = some last) :
    bytes ≠ [] ∧ bytes.getD (bytes.length - 1) 0 = last := by
  constructor
  · rintro rfl
    cases ends
  · rw [List.getD_eq_getElem?_getD, ← List.getLast?_eq_getElem?, ends, Option.getD_some]

/-- The highest bit of a byte is set, and no bit above it. -/
theorem testBit_highest (marked : last ≠ 0) :
    last.toNat.log2 < 8 ∧ last.toNat.testBit last.toNat.log2 = true ∧
      ∀ i, last.toNat.log2 < i → last.toNat.testBit i = false := by
  -- A byte that is not zero has a highest bit.
  have number : last.toNat ≠ 0 := fun zero => marked (UInt8.toNat_inj.mp zero)
  refine ⟨(Nat.log2_lt number).mpr last.toNat_lt, Nat.testBit_log2 number, ?_⟩
  intro i above
  exact Nat.testBit_lt_two_pow
    (Nat.lt_of_lt_of_le Nat.lt_log2_self (Nat.pow_le_pow_right (by decide) above))

/-- Only the last byte is changed by taking the sentinel away. -/
theorem getD_unmarked (last : UInt8) {i : Nat} (within : i < bytes.length) :
    (unmarked bytes last).getD i 0 =
      if i = bytes.length - 1 then last ^^^ (1 <<< UInt8.ofNat last.toNat.log2)
      else bytes.getD i 0 := by
  rw [unmarked, List.getD_eq_getElem?_getD, List.getElem?_append, List.length_dropLast]
  -- Only the last byte carries the end mark, so the bytes before it are unchanged.
  by_cases final : i = bytes.length - 1
  · simp [final]
  · have early : i < bytes.length - 1 := by omega
    rw [if_pos early, if_neg final, List.getElem?_dropLast, if_pos early,
      List.getD_eq_getElem?_getD]

/--
A byte string that does not end in a zero byte packs bits and a sentinel, which is its highest bit;
without that bit it packs the same bits alone.
-/
theorem marked_of_getLast? (ends : bytes.getLast? = some last) (marked : last ≠ 0) {length : Nat}
    (counted : length = 8 * (bytes.length - 1) + last.toNat.log2) :
    bytes = packBits (bytes.bitsUpTo length ++ [true]) ∧
      (unmarked bytes last).take ((length + 7) / 8) = packBits (bytes.bitsUpTo length) := by
  obtain ⟨nonempty, final⟩ := getD_of_getLast? ends
  -- The highest bit of the last byte is the sentinel.
  obtain ⟨small, highest, above⟩ := testBit_highest marked
  have positive : 0 < bytes.length := List.length_pos_of_ne_nil nonempty
  constructor
  · rw [eq_packBits_iff]
    refine ⟨by simp; omega, ?_⟩
    intro i
    rw [getD_marked, Bytes.getD_bitsUpTo, Bytes.length_bitsUpTo]
    rcases Nat.lt_trichotomy i length with before | here | after
    · simp [before, Nat.ne_of_lt before]
    · have quotient : i / 8 = bytes.length - 1 := by omega
      have remainder : i % 8 = last.toNat.log2 := by omega
      rw [Bytes.bitAt, quotient, remainder, final, highest]
      simp [here]
    · -- Past the sentinel there are only the clear bits above it, or no byte at all.
      have clear : bytes.bitAt i = false := by
        by_cases inside : i < 8 * bytes.length
        · have quotient : i / 8 = bytes.length - 1 := by omega
          rw [Bytes.bitAt, quotient, final, above _ (by omega)]
        · exact Bytes.bitAt_of_le (Nat.le_of_not_lt inside)
      simp [clear, Nat.ne_of_gt after]
  · rw [eq_packBits_iff]
    have sized : ((unmarked bytes last).take ((length + 7) / 8)).length = (length + 7) / 8 := by
      rw [List.length_take, unmarked, List.length_append, List.length_dropLast,
        List.length_singleton]
      omega
    refine ⟨by simpa using sized, ?_⟩
    intro i
    rw [Bytes.getD_bitsUpTo]
    by_cases inside : i / 8 < (length + 7) / 8
    · have within : i / 8 < bytes.length := by omega
      have read : Bytes.bitAt ((unmarked bytes last).take ((length + 7) / 8)) i =
          ((unmarked bytes last).getD (i / 8) 0).toNat.testBit (i % 8) := by
        rw [Bytes.bitAt, List.getD_eq_getElem?_getD, List.getElem?_take, if_pos inside,
          List.getD_eq_getElem?_getD]
      rw [read, getD_unmarked last within]
      -- In the last byte the sentinel is taken away, and the other bytes are kept.
      by_cases tail : i / 8 = bytes.length - 1
      · rw [if_pos tail, UInt8.toNat_xor, Nat.testBit_xor,
          testBit_mask _ small _ (Nat.mod_lt _ (by decide)), Bytes.bitAt, tail, final]
        rcases Nat.lt_trichotomy (i % 8) last.toNat.log2 with before | here | after
        · simp [show i < length by omega, Nat.ne_of_lt before]
        · simp [show ¬ i < length by omega, here, highest]
        · simp [show ¬ i < length by omega, Nat.ne_of_gt after, above _ after]
      · rw [if_neg tail, if_pos (by omega)]
        rfl
    · rw [Bytes.bitAt_of_le (by rw [sized]; omega), if_neg (by omega)]

end Sentinel

/-- Different bits are different together with a sentinel. -/
theorem eq_of_packBits_marked {first second : List Bool}
    (same : packBits (first ++ [true]) = packBits (second ++ [true])) : first = second := by
  have agree (i : Nat) : (first.getD i false || decide (i = first.length)) =
      (second.getD i false || decide (i = second.length)) := by
    rw [← getD_marked, ← getD_marked, ← bitAt_packBits, same, bitAt_packBits]
  -- The sentinel of the longer one would meet a clear bit of the other.
  have sized : first.length = second.length := by
    rcases Nat.lt_trichotomy first.length second.length with shorter | equal | longer
    · have clash := agree second.length
      simp [List.getD_eq_getElem?_getD, Nat.ne_of_gt shorter, Nat.le_of_lt shorter] at clash
    · exact equal
    · have clash := agree first.length
      simp [List.getD_eq_getElem?_getD, Nat.ne_of_gt longer, Nat.le_of_lt longer] at clash
  apply eq_of_getD false sized
  intro i _
  -- Apart from the sentinel the bits agree one by one.
  by_cases final : i = first.length
  · simp [List.getD_eq_getElem?_getD, final, sized]
  · simpa [final, sized ▸ final] using agree i

/-- Packed bits with a sentinel end in a byte that is not zero. -/
theorem getLast?_marked (bits : List Bool) :
    ∃ last, (packBits (bits ++ [true])).getLast? = some last ∧ last ≠ 0 := by
  have sized : (packBits (bits ++ [true])).length = bits.length / 8 + 1 := by
    simp only [length_packBits, List.length_append, List.length_singleton]
    omega
  have inside : bits.length / 8 < (packBits (bits ++ [true])).length := by omega
  refine ⟨(packBits (bits ++ [true]))[bits.length / 8], ?_, ?_⟩
  · rw [List.getLast?_eq_getElem?, sized, Nat.add_sub_cancel, List.getElem?_eq_getElem inside]
  · intro zero
    -- The sentinel is set in that byte.
    have set := bitAt_packBits (bits ++ [true]) bits.length
    rw [Bytes.bitAt, List.getD_eq_getElem?_getD, List.getElem?_eq_getElem inside,
      getD_marked] at set
    simp [zero] at set

/-- A bitlist is decoded from its packed bits and their sentinel, unless it is too long. -/
theorem decodeBitlist_marked (bits : List Bool) (maxLength depth : Nat) :
    decodeBitlist (packBits (bits ++ [true])) maxLength depth =
      if maxLength < bits.length then .error (.lengthExceedsMax bits.length maxLength)
      else (Tree.ofDecodedBytes (packBits bits) depth).map fun content =>
        content.withLength (UInt64.ofNat bits.length) := by
  obtain ⟨last, ends, marked⟩ := getLast?_marked bits
  -- What the decoder finds before the sentinel are the bits that were packed.
  obtain ⟨whole, alone⟩ := marked_of_getLast? ends marked rfl
  have same := eq_of_packBits_marked whole
  have counted := congrArg List.length same
  rw [Bytes.length_bitsUpTo] at counted
  rw [← same, ← counted, unmarked] at alone
  simp only [decodeBitlist, ends, if_neg marked, ← counted, alone]
  split
  · rfl
  · cases Tree.ofDecodedBytes (packBits bits) depth <;> rfl

/-- Only packed bits with a sentinel are decoded as a bitlist. -/
theorem marked_of_decodeBitlist {bytes : Bytes} {maxLength depth : Nat} {tree : Tree}
    (read : decodeBitlist bytes maxLength depth = .ok tree) :
    ∃ bits, packBits (bits ++ [true]) = bytes := by
  unfold decodeBitlist at read
  split at read
  · cases read
  · rename_i last ends
    split at read
    · cases read
    · -- A last byte of zero was refused, so a sentinel is there.
      rename_i marked
      exact ⟨_, (marked_of_getLast? ends marked rfl).1.symm⟩

/-- The padding of packed bits passes its check, because it is clear. -/
theorem checkPadding_packBits (bits : List Bool) :
    checkPadding (packBits bits) bits.length = .ok () := by
  unfold checkPadding
  -- Bits that fill their bytes leave no padding to check.
  by_cases whole : bits.length % 8 = 0
  · rw [if_pos whole]
  rw [if_neg whole]
  cases ends : (packBits bits).getLast? with
  | none =>
    -- There is a last byte, since there is at least one bit.
    have none := congrArg List.length (List.getLast?_eq_none_iff.mp ends)
    simp only [length_packBits, List.length_nil] at none
    omega
  | some last =>
    obtain ⟨_, final⟩ := getD_of_getLast? ends
    rw [length_packBits] at final
    have clear : last.toNat >>> (bits.length % 8) = 0 := by
      apply Nat.eq_of_testBit_eq
      intro i
      rw [Nat.testBit_shiftRight, Nat.zero_testBit]
      by_cases small : bits.length % 8 + i < 8
      · -- The bit has a number of its own, which lies past the last bit.
        have quotient : (bits.length + i) / 8 = (bits.length + 7) / 8 - 1 := by omega
        have remainder : (bits.length + i) % 8 = bits.length % 8 + i := by omega
        have read := bitAt_packBits bits (bits.length + i)
        rw [Bytes.bitAt, quotient, remainder, final] at read
        simpa [List.getD_eq_getElem?_getD] using read
      · exact Nat.testBit_lt_two_pow (Nat.lt_of_lt_of_le last.toNat_lt
          (Nat.pow_le_pow_right (by decide) (Nat.le_of_not_lt small)))
    simp [clear]

/-- Bytes of the right number whose padding passes its check pack bits. -/
theorem packBits_of_checkPadding {bytes : Bytes} {length : Nat}
    (sized : bytes.length = (length + 7) / 8) (checked : checkPadding bytes length = .ok ()) :
    bytes = packBits (bytes.bitsUpTo length) := by
  rw [eq_packBits_iff]
  refine ⟨by simpa using sized, ?_⟩
  intro i
  rw [Bytes.getD_bitsUpTo]
  -- Up to the length the bits are those of the input by definition.
  by_cases before : i < length
  · rw [if_pos before]
  rw [if_neg before]
  by_cases inside : i < 8 * bytes.length
  · -- The bit lies in the padding of the last byte, which was checked.
    have whole : length % 8 ≠ 0 := by omega
    rw [checkPadding, if_neg whole] at checked
    cases ends : bytes.getLast? with
    | none =>
      have none := congrArg List.length (List.getLast?_eq_none_iff.mp ends)
      simp only [List.length_nil] at none
      omega
    | some last =>
      obtain ⟨_, final⟩ := getD_of_getLast? ends
      have clear : last.toNat >>> (length % 8) = 0 := by
        rw [ends] at checked
        simpa using checked
      have quotient : i / 8 = bytes.length - 1 := by omega
      have place : length % 8 + (i % 8 - length % 8) = i % 8 := by omega
      rw [Bytes.bitAt, quotient, final, ← place, ← Nat.testBit_shiftRight, clear, Nat.zero_testBit]
  · exact Bytes.bitAt_of_le (Nat.le_of_not_lt inside)

end Ssz
