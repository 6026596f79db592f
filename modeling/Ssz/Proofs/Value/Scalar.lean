import Ssz.Proofs.Bytes
import Ssz.Proofs.Checked
import Ssz.Proofs.Chunk
import Ssz.Value.Scalar

/-! Laws of scalars: which bytes spell a value, and that each value has one spelling. -/

namespace Ssz.Scalar

/-- Bytes that spell a value of a type: as many as its width, and at most one for a truth value. -/
def Spelled (type : Scalar) (bytes : Bytes) : Prop :=
  bytes.length = type.byteLength ∧ (type = boolean → ∀ byte ∈ bytes, byte ≤ 1)

/-- A byte of a truth value is zero or one. -/
theorem eq_zero_or_one {byte : UInt8} (small : byte ≤ 1) : byte = 0 ∨ byte = 1 := by
  have number : byte.toNat ≤ 1 := by simpa [UInt8.le_iff_toNat_le] using small
  rcases Nat.le_one_iff_eq_zero_or_eq_one.mp number with zero | one
  · exact .inl (UInt8.toNat_inj.mp zero)
  · exact .inr (UInt8.toNat_inj.mp one)

/-- A chunk made of thirty-two bytes lists those bytes. -/
theorem toList_padded {bytes : Bytes} (sized : bytes.length = 32) :
    (Chunk.padded bytes).toList = bytes := by
  -- A full chunk leaves no room for padding.
  apply eq_of_getD 0
  · simp [sized]
  · intro i within
    rw [Vector.length_toList] at within
    simp [List.getD_eq_getElem?_getD, Chunk.getElem_padded, within]

/-- An integer of a width up to 128 bits is written at that width, if it fits. -/
theorem encode_uint {type : Scalar} (notBoolean : type ≠ boolean) (number : BitVec 128) :
    type.encode (.uint number) =
      if number.toNat < 256 ^ type.byteLength then
        .ok (littleEndian type.byteLength number.toNat)
      else .error (.typeMismatch (.kind (.scalar type))) := by
  -- The bound is a power of 256, as each byte has eight bits.
  have bound : 256 ^ type.byteLength = 1 <<< (8 * type.byteLength) := by
    rw [Nat.one_shiftLeft, Nat.pow_mul]
  rw [bound]
  cases type with
  | boolean => exact absurd rfl notBoolean
  | _ => rfl

/-- Bytes of a type other than truth values and 256-bit integers spell a number. -/
theorem decode_eq_uint {type : Scalar} (notBoolean : type ≠ boolean) (notWide : type ≠ uint256)
    (bytes : Bytes) : type.decode bytes = .uint (BitVec.ofNat 128 (ofLittleEndian bytes)) := by
  cases type with
  | boolean => exact absurd rfl notBoolean
  | uint256 => exact absurd rfl notWide
  | _ => rfl

/-- Every scalar fits in a chunk. -/
theorem byteLength_le (type : Scalar) : type.byteLength ≤ 32 := by
  cases type <;> decide

/-- A type other than 256-bit integers takes up at most sixteen bytes. -/
theorem byteLength_le_of_narrow {type : Scalar} (notWide : type ≠ uint256) :
    type.byteLength ≤ 16 := by
  cases type with
  | uint256 => exact absurd rfl notWide
  | _ => decide

/-- The value that bytes spell is spelled by those bytes. -/
theorem encode_decode {type : Scalar} {bytes : Bytes} (spelled : type.Spelled bytes) :
    type.encode (type.decode bytes) = .ok bytes := by
  obtain ⟨sized, small⟩ := spelled
  by_cases isBoolean : type = boolean
  · subst isBoolean
    -- A truth value is a single byte, which is zero or one.
    obtain ⟨byte, rfl⟩ := List.length_eq_one_iff.mp sized
    rcases eq_zero_or_one (small rfl byte (by simp)) with rfl | rfl <;> rfl
  by_cases isWide : type = uint256
  · -- A wide integer is kept as its bytes, and no number is formed.
    subst isWide
    simp [encode, decode, toList_padded sized]
  · -- The number fits in 128 bits, so it is kept and written again at its own width.
    have bounded : ofLittleEndian bytes < 256 ^ type.byteLength := sized ▸ ofLittleEndian_lt bytes
    have narrow : 256 ^ type.byteLength ≤ 2 ^ 128 :=
      Nat.le_trans (Nat.pow_le_pow_right (by decide) (byteLength_le_of_narrow isWide)) (by decide)
    have kept : (BitVec.ofNat 128 (ofLittleEndian bytes)).toNat = ofLittleEndian bytes := by
      rw [BitVec.toNat_ofNat, Nat.mod_eq_of_lt (by omega)]
    rw [decode_eq_uint isBoolean isWide, encode_uint isBoolean, kept, if_pos bounded, ← sized,
      littleEndian_ofLittleEndian]

/-- A truth value is spelled by one byte. -/
theorem spelled_bit (bit : Bool) : boolean.Spelled [if bit then 1 else 0] := by
  -- The byte is zero or one, and so a truth value.
  refine ⟨rfl, ?_⟩
  intro _ byte member
  obtain rfl := List.mem_singleton.mp member
  cases bit
  · exact UInt8.zero_le
  · exact UInt8.le_refl 1

/-- Every serialization of a scalar spells a value. -/
theorem spelled_of_encode {type : Scalar} {value : Value} {bytes : Bytes}
    (written : type.encode value = .ok bytes) : type.Spelled bytes := by
  cases value with
  | bool bit =>
    cases type with
    | boolean =>
      cases written
      exact spelled_bit bit
    | _ => cases written
  | uint number =>
    by_cases isBoolean : type = boolean
    · subst isBoolean
      cases written
    · -- An integer that fits is written at exactly the width of the type.
      rw [encode_uint isBoolean] at written
      split at written
      · cases written
        exact ⟨by simp, fun same => absurd same isBoolean⟩
      · cases written
  | uint256 chunk =>
    cases type with
    | uint256 =>
      cases written
      exact ⟨by simp [byteLength], nofun⟩
    | _ => cases written
  | _ => cases type <;> cases written

/-- The form in which a value is read back: a 256-bit integer always as its thirty-two bytes. -/
def normal (type : Scalar) (value : Value) : Value :=
  match type, value with
  | uint256, .uint number => .uint256 (Chunk.padded (littleEndian 32 number.toNat))
  | _, value => value

/-- The bytes that a value serializes to spell its normal form. -/
theorem decode_of_encode {type : Scalar} {value : Value} {bytes : Bytes}
    (written : type.encode value = .ok bytes) : type.decode bytes = type.normal value := by
  cases value with
  | bool bit =>
    cases type with
    | boolean =>
      cases written
      cases bit <;> rfl
    | _ => cases written
  | uint number =>
    by_cases isBoolean : type = boolean
    · subst isBoolean
      cases written
    · rw [encode_uint isBoolean] at written
      split at written
      · rename_i fits
        cases written
        -- Only the wide type reads an integer back in another form than it was given.
        by_cases isWide : type = uint256
        · subst isWide
          rfl
        · have same : type.normal (.uint number) = .uint number := by
            cases type <;> simp_all [normal]
          rw [decode_eq_uint isBoolean isWide, ofLittleEndian_littleEndian_of_lt fits, same,
            BitVec.ofNat_toNat, BitVec.setWidth_eq]
      · cases written
  | uint256 chunk =>
    cases type with
    | uint256 =>
      cases written
      -- All thirty-two bytes of a chunk are written, so nothing is padded when they are read.
      have kept : Chunk.padded chunk.toList = chunk := by
        apply Vector.ext
        intro i within
        simp [Chunk.getElem_padded, List.getD_eq_getElem?_getD, within]
      simp [decode, normal, kept]
    | _ => cases written
  | _ => cases type <;> cases written

/-- Joined spellings of one type take up a whole number of widths. -/
theorem length_flatten {type : Scalar} {pieces : List Bytes}
    (spelled : ∀ piece ∈ pieces, type.Spelled piece) :
    pieces.flatten.length = pieces.length * type.byteLength :=
  length_flatten_of_width type.byteLength fun piece member => (spelled piece member).1

/-- Joined spellings are read back one after the other. -/
theorem decodeFirst_flatten {type : Scalar} {pieces : List Bytes}
    (spelled : ∀ piece ∈ pieces, type.Spelled piece) :
    type.decodeFirst pieces.flatten pieces.length = pieces.map type.decode := by
  induction pieces with
  | nil => rfl
  | cons piece rest ih =>
    -- Each piece has the width that reading cuts off for one value.
    have sized := (spelled piece (by simp)).1
    have later := ih fun other member => spelled other (by simp [member])
    simp only [List.flatten_cons, List.length_cons, decodeFirst, List.map_cons]
    rw [← sized, List.take_left, List.drop_left, later]

/-- The values of joined spellings are those of the single spellings. -/
theorem decodeAll_flatten {type : Scalar} {pieces : List Bytes}
    (spelled : ∀ piece ∈ pieces, type.Spelled piece) :
    type.decodeAll pieces.flatten = pieces.map type.decode := by
  rw [decodeAll, length_flatten spelled, Nat.mul_div_cancel _ type.byteLength_pos,
    decodeFirst_flatten spelled]

/-- Serializing several scalars succeeds exactly when each has a spelling, which are joined. -/
theorem encodeAll_eq_ok {type : Scalar} {values : List Value} {bytes : Bytes} :
    type.encodeAll values = .ok bytes ↔
      ∃ pieces, List.Forall₂ (fun value piece => type.encode value = .ok piece) values pieces ∧
        pieces.flatten = bytes := by
  simp [encodeAll, bind_eq_ok, mapM_eq_ok]

/-- Serializations of scalars are spellings of their normal forms, one for each. -/
theorem pieces_of_encode {type : Scalar} {values : List Value} {pieces : List Bytes}
    (written : List.Forall₂ (fun value piece => type.encode value = .ok piece) values pieces) :
    (∀ piece ∈ pieces, type.Spelled piece) ∧ values.map type.normal = pieces.map type.decode := by
  induction written with
  | nil => simp
  | cons first _ ih =>
    obtain ⟨spelled, same⟩ := ih
    -- Member by member, a serialization is a spelling of what is read back.
    refine ⟨?_, by simp [decode_of_encode first, same]⟩
    intro piece member
    rcases List.mem_cons.mp member with rfl | later
    · exact spelled_of_encode first
    · exact spelled piece later

/-- The values of spellings serialize to those spellings, joined. -/
theorem encodeAll_map_decode {type : Scalar} {pieces : List Bytes}
    (spelled : ∀ piece ∈ pieces, type.Spelled piece) :
    type.encodeAll (pieces.map type.decode) = .ok pieces.flatten := by
  refine encodeAll_eq_ok.mpr ⟨pieces, ?_, rfl⟩
  rw [List.forall₂_map_left_iff, List.forall₂_same]
  exact fun piece member => encode_decode (spelled piece member)

end Ssz.Scalar
