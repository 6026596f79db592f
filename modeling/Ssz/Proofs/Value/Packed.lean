import Ssz.Proofs.Bits
import Ssz.Proofs.Overwrite
import Ssz.Proofs.Value.Scalar

/-! Scalars and bits side by side in chunks: where each one lies, and what writing one changes. -/

namespace Ssz

namespace Scalar

variable {type : Scalar} {pieces : List Bytes} {piece : Bytes}

/-- A byte belongs to a scalar exactly when it lies in the scalar's chunk, within its width. -/
theorem byte_of_scalar_iff (type : Scalar) (i j k : Nat) (within : k < 32) :
    (32 * j + k) / type.byteLength = i ↔
      j = i / type.perChunk ∧ i % type.perChunk * type.byteLength ≤ k ∧
        k < i % type.perChunk * type.byteLength + type.byteLength := by
  -- The widths divide a chunk evenly, which is a sum of small numbers for each type.
  cases type <;> simp only [byteLength, perChunk] <;> omega

/-- Within its scalar a byte is counted from the scalar's first byte. -/
theorem byte_in_scalar (type : Scalar) {i j k : Nat}
    (start : i % type.perChunk * type.byteLength ≤ k)
    (stop : k < i % type.perChunk * type.byteLength + type.byteLength) :
    (32 * j + k) % type.byteLength = k - i % type.perChunk * type.byteLength := by
  cases type <;> simp only [byteLength, perChunk] at start stop ⊢ <;> omega

/-- A scalar does not reach past the end of its chunk. -/
theorem scalar_le_chunk (type : Scalar) (i : Nat) :
    i % type.perChunk * type.byteLength + type.byteLength ≤ 32 := by
  cases type <;> simp only [byteLength, perChunk] <;> omega

/-- A chunk of the joined spellings shows each scalar at its own place. -/
theorem slice_window (spelled : ∀ piece ∈ pieces, type.Spelled piece) {i : Nat}
    (found : pieces[i]? = some piece) :
    (Chunk.window pieces.flatten (i / type.perChunk)).slice (i % type.perChunk * type.byteLength)
      (i % type.perChunk * type.byteLength + type.byteLength) = piece := by
  have room := scalar_le_chunk type i
  -- The slice is as wide as the scalar, and each byte of it is found in the scalar.
  have sized := (spelled piece (List.mem_of_getElem? found)).1
  apply eq_of_getD 0
  · rw [Chunk.length_slice _ _ _ room, sized]
  · intro k within
    rw [Chunk.length_slice _ _ _ room] at within
    have inside : i % type.perChunk * type.byteLength + k < 32 := by omega
    have place := (byte_of_scalar_iff type i _ _ inside).mpr
      ⟨rfl, Nat.le_add_right _ _, by omega⟩
    have offset := @byte_in_scalar type i (i / type.perChunk) _ (Nat.le_add_right _ k) (by omega)
    rw [Chunk.getD_slice _ _ _ room within, Chunk.getElem_window,
      getD_flatten_of_width type.byteLength type.byteLength_pos
        (fun piece member => (spelled piece member).1), place, offset, Nat.add_sub_cancel_left]
    simp [List.getD_eq_getElem?_getD, found]

/-- Writing a scalar patches its own chunk. -/
theorem window_overwrite_here (spelled : ∀ piece ∈ pieces, type.Spelled piece)
    (fresh : type.Spelled piece) {i : Nat} (reached : i ≤ pieces.length) :
    Chunk.window (overwrite pieces i piece).flatten (i / type.perChunk) =
      (Chunk.window pieces.flatten (i / type.perChunk)).patch
        (i % type.perChunk * type.byteLength) piece := by
  have room := scalar_le_chunk type i
  have each : ∀ other ∈ overwrite pieces i piece, other.length = type.byteLength := by
    intro other member
    rcases mem_overwrite member with rfl | old
    · exact fresh.1
    · exact (spelled other old).1
  apply Vector.ext
  intro k within
  rw [Chunk.getElem_window, getD_flatten_of_width type.byteLength type.byteLength_pos each,
    getD_overwrite piece [] reached, Chunk.getElem_patch _ (by rw [fresh.1]; exact room),
    Chunk.getElem_window, fresh.1]
  -- A byte of the chunk belongs to the scalar written, or to a neighbour of it.
  by_cases own : (32 * (i / type.perChunk) + k) / type.byteLength = i
  · obtain ⟨_, start, stop⟩ := (byte_of_scalar_iff type i _ k within).mp own
    rw [if_pos own, if_pos ⟨start, stop⟩, byte_in_scalar type start stop]
  · have outside := fun between => own ((byte_of_scalar_iff type i _ k within).mpr ⟨rfl, between⟩)
    rw [if_neg own, if_neg outside, getD_flatten_of_width type.byteLength type.byteLength_pos
      fun piece member => (spelled piece member).1]

/-- Writing a scalar leaves every other chunk alone. -/
theorem window_overwrite_elsewhere (spelled : ∀ piece ∈ pieces, type.Spelled piece)
    (fresh : type.Spelled piece) {i j : Nat} (reached : i ≤ pieces.length)
    (other : j ≠ i / type.perChunk) :
    Chunk.window (overwrite pieces i piece).flatten j = Chunk.window pieces.flatten j := by
  have each : ∀ other ∈ overwrite pieces i piece, other.length = type.byteLength := by
    intro other member
    rcases mem_overwrite member with rfl | old
    · exact fresh.1
    · exact (spelled other old).1
  apply Vector.ext
  intro k within
  -- No byte of another chunk belongs to the scalar written.
  have apart : (32 * j + k) / type.byteLength ≠ i := fun same =>
    other ((byte_of_scalar_iff type i j k within).mp same).1
  rw [Chunk.getElem_window, Chunk.getElem_window,
    getD_flatten_of_width type.byteLength type.byteLength_pos each,
    getD_overwrite piece [] reached, if_neg apart,
    getD_flatten_of_width type.byteLength type.byteLength_pos
      fun piece member => (spelled piece member).1]

end Scalar

/-- A chunk of packed bits shows each bit at its own place. -/
theorem getBit_window_packBits {bits : List Bool} {bit : Bool} {i : Nat}
    (found : bits[i]? = some bit) :
    (Chunk.window (packBits bits) (i / 256)).getBit (i % 256) = bit := by
  rw [Chunk.getBit_window _ _ _ (Nat.mod_lt _ (by decide)), Nat.div_add_mod, bitAt_packBits,
    List.getD_eq_getElem?_getD, found, Option.getD_some]

/-- Writing a bit sets it in its own chunk. -/
theorem window_packBits_here {bits : List Bool} (bit : Bool) {i : Nat}
    (reached : i ≤ bits.length) :
    Chunk.window (packBits (overwrite bits i bit)) (i / 256) =
      (Chunk.window (packBits bits) (i / 256)).setBit (i % 256) bit := by
  apply Chunk.eq_of_getBit
  intro k within
  rw [Chunk.getBit_window _ _ _ within, bitAt_packBits, getD_overwrite bit false reached,
    Chunk.getBit_setBit _ _ (Nat.mod_lt _ (by decide)) _ within, Chunk.getBit_window _ _ _ within,
    bitAt_packBits]
  -- Within its chunk a bit is counted from the first bit of the chunk.
  have place : (256 * (i / 256) + k = i) = (k = i % 256) := by
    apply propext
    omega
  simp only [place]

/-- Writing a bit leaves every other chunk alone. -/
theorem window_packBits_elsewhere {bits : List Bool} (bit : Bool) {i j : Nat}
    (reached : i ≤ bits.length) (other : j ≠ i / 256) :
    Chunk.window (packBits (overwrite bits i bit)) j = Chunk.window (packBits bits) j := by
  apply Chunk.eq_of_getBit
  intro k within
  rw [Chunk.getBit_window _ _ _ within, Chunk.getBit_window _ _ _ within, bitAt_packBits,
    bitAt_packBits, getD_overwrite bit false reached, if_neg (by omega)]

end Ssz
