import Ssz.Proofs.Chunk

/-! Laws of bit strings: where packing puts each bit, and what setting a single bit changes. -/

namespace Ssz

/-- The bit at a position of a byte string, least significant first within each byte. -/
def Bytes.bitAt (bytes : Bytes) (position : Nat) : Bool :=
  (bytes.getD (position / 8) 0).toNat.testBit (position % 8)

/-- Bytes with the same eight bits are equal. -/
theorem eq_of_testBit {first second : UInt8}
    (agree : ∀ i, i < 8 → first.toNat.testBit i = second.toNat.testBit i) : first = second := by
  apply UInt8.toNat_inj.mp
  apply Nat.eq_of_testBit_eq
  intro i
  by_cases within : i < 8
  · exact agree i within
  · -- A number below 256 has no bit from the ninth on.
    have small (byte : UInt8) : byte.toNat < 2 ^ i :=
      Nat.lt_of_lt_of_le byte.toNat_lt (Nat.pow_le_pow_right (by decide) (Nat.le_of_not_lt within))
    rw [Nat.testBit_lt_two_pow (small first), Nat.testBit_lt_two_pow (small second)]

/-- Byte strings of one length with the same bits are equal. -/
theorem Bytes.eq_of_bitAt {first second : Bytes} (sized : first.length = second.length)
    (agree : ∀ i, first.bitAt i = second.bitAt i) : first = second := by
  apply eq_of_getD 0 sized
  intro i _
  apply eq_of_testBit
  intro j within
  -- A bit of a byte is the bit of the string at eight times its number further on.
  have same := agree (8 * i + j)
  have quotient : (8 * i + j) / 8 = i := by omega
  have remainder : (8 * i + j) % 8 = j := by omega
  simpa only [Bytes.bitAt, quotient, remainder] using same

/-- No bit is set past the end of a byte string. -/
theorem Bytes.bitAt_of_le {bytes : Bytes} {position : Nat}
    (past : 8 * bytes.length ≤ position) : bytes.bitAt position = false := by
  have beyond : bytes.length ≤ position / 8 := by omega
  simp [Bytes.bitAt, List.getD_eq_getElem?_getD, List.getElem?_eq_none beyond]

/-- The first of several packed bits is the lowest, and the others lie one place higher. -/
theorem toNat_byteOfBits_cons (bit : Bool) (rest : List Bool) :
    (byteOfBits (bit :: rest)).toNat = (bit.toNat + 2 * (byteOfBits rest).toNat) % 2 ^ 8 := by
  cases bit <;> simp [byteOfBits]

/-- A packed byte holds each of the first eight bits at its own position. -/
theorem testBit_byteOfBits (bits : List Bool) (i : Nat) :
    (byteOfBits bits).toNat.testBit i = (decide (i < 8) && bits.getD i false) := by
  induction bits generalizing i with
  | nil => simp [byteOfBits]
  | cons bit rest ih =>
    rw [toNat_byteOfBits_cons, Nat.testBit_mod_two_pow]
    cases i with
    | zero => cases bit <;> simp
    | succ i =>
      -- Dropping the lowest bit moves every other one down by one place.
      have shifted : (bit.toNat + 2 * (byteOfBits rest).toNat).testBit (i + 1)
          = (byteOfBits rest).toNat.testBit i := by
        rw [Nat.testBit_add_one]
        congr 1
        cases bit
        · simp
        · simp
          omega
      rw [shifted, ih i, List.getD_cons_succ]
      by_cases within : i + 1 < 8
      · simp [show i < 8 by omega]
      · simp [within]

/-- Bits take up the bytes that their count asks for. -/
@[simp] theorem length_packBits (bits : List Bool) :
    (packBits bits).length = (bits.length + 7) / 8 := by
  -- Packing takes up to eight bits at a time, so the induction follows its steps.
  induction bits using packBits.induct with
  | case1 => simp [packBits]
  | case2 bit rest ih =>
    rw [packBits, List.length_cons, ih]
    simp only [List.length_drop, List.length_cons]
    omega

/-- Packed bits keep their positions, and every bit after them is clear. -/
@[simp] theorem bitAt_packBits (bits : List Bool) (position : Nat) :
    (packBits bits).bitAt position = bits.getD position false := by
  induction bits using packBits.induct generalizing position with
  | case1 => simp [packBits, Bytes.bitAt]
  | case2 bit rest ih =>
    -- Either the bit lies in the first byte, or in the same place of the rest.
    by_cases first : position < 8
    · have quotient : position / 8 = 0 := by omega
      have remainder : position % 8 = position := by omega
      rw [packBits, Bytes.bitAt, quotient, remainder, List.getD_cons_zero, testBit_byteOfBits]
      generalize bit :: rest = bits
      simp [List.getD_eq_getElem?_getD, first]
    · obtain ⟨ahead, rfl⟩ := Nat.exists_eq_add_of_le (Nat.le_of_not_lt first)
      have later := ih ahead
      have quotient : (8 + ahead) / 8 = ahead / 8 + 1 := by omega
      have remainder : (8 + ahead) % 8 = ahead % 8 := by omega
      unfold Bytes.bitAt at later
      rw [packBits, Bytes.bitAt, quotient, remainder, List.getD_cons_succ, later]
      simp [List.getD_eq_getElem?_getD, show 8 + ahead = 7 + ahead + 1 by omega]

/-- A byte string is the packing of bits exactly when it has their size and their bits. -/
theorem eq_packBits_iff (bytes : Bytes) (bits : List Bool) :
    bytes = packBits bits ↔
      bytes.length = (bits.length + 7) / 8 ∧ ∀ i, bytes.bitAt i = bits.getD i false := by
  constructor
  · rintro rfl
    simp
  · -- Size and bits together leave no freedom.
    rintro ⟨sized, agree⟩
    apply Bytes.eq_of_bitAt
    · simpa using sized
    · simpa using agree

/-- Unpacking bytes gives eight bits for each. -/
@[simp] theorem length_unpackBits (bytes : Bytes) :
    (unpackBits bytes).length = 8 * bytes.length := by
  rw [unpackBits, List.flatMap_def, length_flatten_of_width 8 (by simp [bitsOfByte])]
  simp [Nat.mul_comm]

/-- Unpacked bits are the bits of the bytes. -/
theorem getD_unpackBits (bytes : Bytes) (i : Nat) :
    (unpackBits bytes).getD i false = bytes.bitAt i := by
  have small : i % 8 < 8 := Nat.mod_lt _ (by decide)
  rw [unpackBits, List.flatMap_def, Bytes.bitAt,
    getD_flatten_of_width 8 (by decide) (by simp [bitsOfByte]) false i]
  -- A bit past the last byte reads as clear on both sides.
  by_cases within : i / 8 < bytes.length
  · simp [List.getD_eq_getElem?_getD, within, bitsOfByte, small]
  · simp [List.getD_eq_getElem?_getD, List.getElem?_eq_none (Nat.le_of_not_lt within)]

/-- Packed bits unpack to themselves, followed by the padding of the last byte. -/
theorem unpackBits_packBits (bits : List Bool) :
    (unpackBits (packBits bits)).take bits.length = bits := by
  -- The padding of the last byte lengthens the result, and it is cut off again.
  apply take_eq_of_getD false
  · simp only [length_unpackBits, length_packBits]
    omega
  · intro i _
    rw [getD_unpackBits, bitAt_packBits]

/-- The mask of a place has the bit of that place and no other. -/
theorem testBit_mask : ∀ place, place < 8 → ∀ i, i < 8 →
    ((1 : UInt8) <<< UInt8.ofNat place).toNat.testBit i = decide (i = place) := by
  -- One of eight masks is read at one of eight places.
  decide

/-- The inverted mask of a place has every bit but the one of that place. -/
theorem testBit_not_mask : ∀ place, place < 8 → ∀ i, i < 8 →
    (~~~((1 : UInt8) <<< UInt8.ofNat place)).toNat.testBit i = !decide (i = place) := by
  decide

/-- Setting or clearing one bit of a byte leaves its other bits alone. -/
theorem testBit_setBit (byte : UInt8) (bit : Bool) {place : Nat} (small : place < 8) (i : Nat)
    (within : i < 8) :
    (if bit then byte ||| (1 : UInt8) <<< UInt8.ofNat place
      else byte &&& ~~~((1 : UInt8) <<< UInt8.ofNat place)).toNat.testBit i =
      if i = place then bit else byte.toNat.testBit i := by
  -- Setting is done with the mask, clearing with its inverse.
  cases bit with
  | true =>
    rw [if_pos rfl, UInt8.toNat_or, Nat.testBit_or, testBit_mask place small i within]
    by_cases here : i = place <;> simp [here]
  | false =>
    rw [if_neg (by decide), UInt8.toNat_and, Nat.testBit_and, testBit_not_mask place small i within]
    by_cases here : i = place <;> simp [here]

namespace Chunk

/-- Chunks with the same 256 bits are equal. -/
theorem eq_of_getBit {first second : Chunk}
    (agree : ∀ i, i < 256 → first.getBit i = second.getBit i) : first = second := by
  apply Vector.ext
  intro i within
  apply eq_of_testBit
  intro j small
  -- Eight bits settle each of the thirty-two bytes.
  have same := agree (8 * i + j) (by omega)
  have quotient : (8 * i + j) / 8 = i := by omega
  have remainder : (8 * i + j) % 8 = j := by omega
  simpa [getBit, quotient, remainder, within] using same

/-- A window shows the bits of its own part of the byte string. -/
theorem getBit_window (bytes : Bytes) (index position : Nat) (within : position < 256) :
    (window bytes index).getBit position = bytes.bitAt (256 * index + position) := by
  -- A window begins at a whole byte, so the place within a byte stays the same.
  have inside : position / 8 < 32 := by omega
  have quotient : (256 * index + position) / 8 = 32 * index + position / 8 := by omega
  have remainder : (256 * index + position) % 8 = position % 8 := by omega
  rw [Bytes.bitAt, quotient, remainder, ← getElem_window bytes index _ inside]
  simp [getBit, inside]

/-- Setting a bit of a chunk changes no other bit. -/
theorem getBit_setBit (chunk : Chunk) (bit : Bool) {position : Nat} (small : position < 256)
    (i : Nat) (within : i < 256) :
    (chunk.setBit position bit).getBit i = if i = position then bit else chunk.getBit i := by
  have inside : i / 8 < 32 := by omega
  have room : position / 8 + 1 ≤ 32 := by omega
  have read (other : Chunk) : other.getBit i = other[i / 8].toNat.testBit (i % 8) := by
    simp [getBit, inside]
  rw [read, read, setBit, getElem_patch chunk (by simpa using room) _ inside]
  by_cases same : i / 8 = position / 8
  · -- Within the byte that is rewritten, only the bit asked for changes.
    have place : (i = position) = (i % 8 = position % 8) := by
      apply propext
      omega
    have old : chunk.toList.getD (position / 8) 0 = chunk[i / 8] := by
      simp [← same, inside]
    have first : i / 8 - position / 8 = 0 := by omega
    rw [if_pos (by simp; omega), first, List.getD_cons_zero, old,
      testBit_setBit _ _ (Nat.mod_lt _ (by decide)) _ (Nat.mod_lt _ (by decide))]
    simp only [place]
  · -- A bit of another byte is not reached by the patch.
    have other : i ≠ position := fun equal => same (by rw [equal])
    rw [if_neg (by simp; omega), if_neg other]

end Chunk

end Ssz
