import Ssz.Error
import Ssz.Value.Basic

/-! The little-endian serialization of scalars. -/

namespace Ssz.Scalar

/-- The serialization of a value of a scalar type. -/
def encode (type : Scalar) (value : Value) : Except ViewError Bytes :=
  match type, value with
  | boolean, .bool bit => .ok [if bit then 1 else 0]
  | uint256, .uint256 bytes => .ok bytes.toList
  | boolean, _ => .error (.typeMismatch (.kind (.scalar boolean)))
  | type, .uint number =>
    -- A number has to fit in the width, so that no digits are lost.
    if number.toNat < 1 <<< (8 * type.byteLength) then
      .ok (littleEndian type.byteLength number.toNat)
    else .error (.typeMismatch (.kind (.scalar type)))
  | type, _ => .error (.typeMismatch (.kind (.scalar type)))

/-- The value of a scalar type that its bytes spell. -/
def decode (type : Scalar) (bytes : Bytes) : Value :=
  match type with
  | boolean => .bool (bytes.headD 0 != 0)
  | uint256 => .uint256 (Chunk.padded bytes)
  | _ => .uint (BitVec.ofNat 128 (ofLittleEndian bytes))

/-- The joined serializations of values of a scalar type. -/
def encodeAll (type : Scalar) (values : List Value) : Except ViewError Bytes := do
  return (← values.mapM type.encode).flatten

/-- The first `count` values of a scalar type in a byte string. -/
def decodeFirst (type : Scalar) (bytes : Bytes) : (count : Nat) → List Value
  | 0 => []
  | count + 1 =>
    type.decode (bytes.take type.byteLength) :: type.decodeFirst (bytes.drop type.byteLength) count

/-- The values of a scalar type that a byte string holds, one after the other. -/
def decodeAll (type : Scalar) (bytes : Bytes) : List Value :=
  type.decodeFirst bytes (bytes.length / type.byteLength)

end Ssz.Scalar
