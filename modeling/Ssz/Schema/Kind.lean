/-! Scalar types, and the names of the kinds of schemas. -/

namespace Ssz

/-- The scalar types. Those narrower than a chunk share chunks in sequences. -/
inductive Scalar where
  | boolean
  | uint8
  | uint16
  | uint32
  | uint64
  | uint128
  | uint256
  deriving DecidableEq, Repr, Inhabited

namespace Scalar

/-- The serialized width in bytes. -/
def byteLength : Scalar → Nat
  | boolean | uint8 => 1
  | uint16 => 2
  | uint32 => 4
  | uint64 => 8
  | uint128 => 16
  | uint256 => 32

/-- The name of a scalar type. -/
def name : Scalar → String
  | boolean => "boolean"
  | uint8 => "uint8"
  | uint16 => "uint16"
  | uint32 => "uint32"
  | uint64 => "uint64"
  | uint128 => "uint128"
  | uint256 => "uint256"

/-- How many scalars of this type share one chunk. -/
def perChunk (scalar : Scalar) : Nat :=
  32 / scalar.byteLength

/-- The unsigned integer type of a bit width, when there is one. -/
def ofBits? (bits : Nat) : Option Scalar :=
  match bits with
  | 8 => some uint8
  | 16 => some uint16
  | 32 => some uint32
  | 64 => some uint64
  | 128 => some uint128
  | 256 => some uint256
  | _ => none

/-- Every scalar occupies at least one byte. -/
theorem byteLength_pos (scalar : Scalar) : 0 < scalar.byteLength := by
  cases scalar <;> decide

/-- Scalars fill a chunk exactly. -/
theorem perChunk_mul_byteLength (scalar : Scalar) : scalar.perChunk * scalar.byteLength = 32 := by
  cases scalar <;> decide

end Scalar

/-- The kind of a schema, which names it in messages. -/
inductive Kind where
  | scalar (type : Scalar)
  | vector
  | list
  | bitvector
  | bitlist
  | container
  | union
  deriving DecidableEq, Repr

/-- The name of a kind; a scalar goes by the name of its type. -/
def Kind.name : Kind → String
  | scalar type => type.name
  | vector => "vector"
  | list => "list"
  | bitvector => "bitvector"
  | bitlist => "bitlist"
  | container => "container"
  | union => "union"

end Ssz
