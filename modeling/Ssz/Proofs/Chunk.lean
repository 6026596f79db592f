import Ssz.Chunk
import Ssz.Proofs.Bytes

/-! Laws of chunks: what packing, unpacking and patching do to single bytes and bits. -/

namespace Ssz

namespace Chunk

/-- A padded chunk starts with the bytes given and goes on with zeros. -/
theorem getElem_padded (bytes : Bytes) (i : Nat) (within : i < 32) :
    (padded bytes)[i] = bytes.getD i 0 := by
  simp only [padded, Vector.getElem_mk, List.getElem_toArray, List.getElem_take]
  -- Thirty-two zeros follow the bytes, which are enough for every position of a chunk.
  simp only [List.getElem_append, List.getElem_replicate, List.getD_eq_getElem?_getD]
  split
  · rename_i inside
    simp [inside]
  · rename_i past
    simp [List.getElem?_eq_none (Nat.le_of_not_lt past)]

/-- The zero chunk is zero at every position. -/
@[simp] theorem getElem_zero (i : Nat) (within : i < 32) : zero[i] = 0 := by
  simp [zero]

/-- No bytes make the zero chunk. -/
@[simp] theorem padded_nil : padded [] = zero := by
  apply Vector.ext
  intro i within
  simp [getElem_padded]

/-- The chunk numbered `index` of a byte string, padded with zeros past its end. -/
def window (bytes : Bytes) (index : Nat) : Chunk :=
  padded (bytes.drop (32 * index))

/-- A window shows the bytes of its own part of the byte string. -/
theorem getElem_window (bytes : Bytes) (index i : Nat) (within : i < 32) :
    (window bytes index)[i] = bytes.getD (32 * index + i) 0 := by
  simp [window, getElem_padded, List.getD_eq_getElem?_getD]

/-- The first window of up to thirty-two bytes holds all of them. -/
theorem padded_eq_window (bytes : Bytes) : padded bytes = window bytes 0 := by
  simp [window]

/-- The bytes cut out of a padded chunk are those given, as long as they fit. -/
theorem slice_padded {bytes : Bytes} (fits : bytes.length ≤ 32) :
    (padded bytes).slice 0 bytes.length = bytes := by
  -- Entry by entry, the padding lies past everything that is cut out.
  apply List.ext_getElem
  · simp [slice, Bytes.slice, fits]
  · intro i _ inside
    have read := getElem_padded bytes i (by omega)
    simp only [List.getD_eq_getElem?_getD, List.getElem?_eq_getElem inside] at read
    simpa [slice, Bytes.slice] using read

/-- A length is read back from the chunk made of it. -/
@[simp] theorem length_ofLength (length : UInt64) : (ofLength length).length = length := by
  -- The eight bytes of a word are cut out of the chunk as they were put in.
  have cut := @slice_padded (littleEndian 8 length.toNat) (by simp)
  rw [littleEndian_length] at cut
  rw [Chunk.length, ofLength, cut, ofLittleEndian_littleEndian_of_lt length.toNat_lt,
    UInt64.ofNat_toNat]

/-- A selector is read back from the chunk made of it. -/
@[simp] theorem selector_ofSelector (selector : UInt32) :
    (ofSelector selector).selector = selector := by
  -- A selector takes four bytes where a length takes eight.
  have cut := @slice_padded (littleEndian 4 selector.toNat) (by simp)
  rw [littleEndian_length] at cut
  rw [Chunk.selector, ofSelector, cut, ofLittleEndian_littleEndian_of_lt selector.toNat_lt,
    UInt32.ofNat_toNat]

/-- Cutting out `width` bytes from position `start` reads those positions. -/
theorem getD_slice (chunk : Chunk) (start width : Nat) (room : start + width ≤ 32) {i : Nat}
    (within : i < width) : (chunk.slice start (start + width)).getD i 0 = chunk[start + i] := by
  have inside : start + i < 32 := by omega
  simp [slice, Bytes.slice, List.getD_eq_getElem?_getD, within, inside]

/-- A slice inside a chunk has the width asked for. -/
theorem length_slice (chunk : Chunk) (start width : Nat) (room : start + width ≤ 32) :
    (chunk.slice start (start + width)).length = width := by
  simp [slice, Bytes.slice]
  omega

/-- A patch replaces the bytes at its own positions and no others. -/
theorem getElem_patch (chunk : Chunk) {offset : Nat} {bytes : Bytes}
    (room : offset + bytes.length ≤ 32) (i : Nat) (within : i < 32) :
    (chunk.patch offset bytes)[i] =
      if offset ≤ i ∧ i < offset + bytes.length then bytes.getD (i - offset) 0 else chunk[i] := by
  -- The bytes kept in front are as many as the offset says, since it lies in the chunk.
  have ahead : (chunk.toList.take offset).length = offset := by simp; omega
  rw [patch, getElem_padded, List.append_assoc, List.getD_eq_getElem?_getD, List.getElem?_append,
    ahead]
  -- The position lies before, within, or after the bytes written.
  by_cases before : i < offset
  · simp [before, show ¬ offset ≤ i by omega, within]
  · rw [if_neg before, List.getElem?_append]
    by_cases inside : i - offset < bytes.length
    · simp [inside, show offset ≤ i ∧ i < offset + bytes.length by omega]
    · have back : offset + bytes.length + (i - offset - bytes.length) = i := by omega
      simp [inside, show ¬ i < offset + bytes.length by omega, back, within]

end Chunk

/-- A byte string takes up the chunks that its length asks for. -/
@[simp] theorem length_packBytes (bytes : Bytes) :
    (packBytes bytes).length = (bytes.length + 31) / 32 := by
  -- Packing takes up to thirty-two bytes at a time, so the induction follows its steps.
  induction bytes using packBytes.induct with
  | case1 => simp [packBytes]
  | case2 byte rest ih =>
    rw [packBytes, List.length_cons, ih]
    simp only [List.length_drop, List.length_cons]
    omega

/-- The chunks of a byte string are its windows, and zero after them. -/
theorem getD_packBytes (bytes : Bytes) (i : Nat) :
    (packBytes bytes).getD i Chunk.zero = Chunk.window bytes i := by
  induction bytes using packBytes.induct generalizing i with
  | case1 => simp [packBytes, Chunk.window]
  | case2 byte rest ih =>
    unfold packBytes
    cases i with
    | zero =>
      -- The cut before padding takes away only what padding would take away.
      rw [List.getD_cons_zero]
      generalize byte :: rest = bytes
      apply Vector.ext
      intro j within
      simp [Chunk.getElem_padded, Chunk.getElem_window, List.getD_eq_getElem?_getD, within]
    | succ i =>
      -- Every later window starts a whole chunk further on.
      have shift : 32 * (i + 1) = 31 + 32 * i + 1 := by omega
      rw [List.getD_cons_succ, ih i, Chunk.window, Chunk.window, shift, List.drop_succ_cons,
        List.drop_drop]

/-- Unpacking chunks gives thirty-two bytes for each. -/
@[simp] theorem length_unpackBytes (chunks : List Chunk) :
    (unpackBytes chunks).length = 32 * chunks.length := by
  rw [unpackBytes, List.flatMap_def, length_flatten_of_width 32 (by simp)]
  simp [Nat.mul_comm]

/-- A byte of unpacked chunks is found by the quotient and the remainder. -/
theorem getD_unpackBytes (chunks : List Chunk) (i : Nat) :
    (unpackBytes chunks).getD i 0 =
      have small : i % 32 < 32 := Nat.mod_lt _ (by decide)
      (chunks.getD (i / 32) Chunk.zero)[i % 32] := by
  have small : i % 32 < 32 := Nat.mod_lt _ (by decide)
  rw [unpackBytes, List.flatMap_def,
    getD_flatten_of_width 32 (by decide) (by simp) 0 i]
  -- A position past the last chunk reads as zero on both sides.
  by_cases within : i / 32 < chunks.length
  · simp [List.getD_eq_getElem?_getD, within, small]
  · simp [List.getD_eq_getElem?_getD, List.getElem?_eq_none (Nat.le_of_not_lt within)]

/-- Packed bytes unpack to themselves, followed by the padding of the last chunk. -/
theorem unpackBytes_packBytes (bytes : Bytes) :
    (unpackBytes (packBytes bytes)).take bytes.length = bytes := by
  -- The padding only lengthens the result, and it is cut off again.
  apply take_eq_of_getD 0
  · simp only [length_unpackBytes, length_packBytes]
    omega
  · intro i _
    simp only [getD_unpackBytes, getD_packBytes, Chunk.getElem_window]
    rw [Nat.div_add_mod]

end Ssz
