import Ssz.Chunk

/-! Plain values, which a schema interprets. -/

namespace Ssz

/-- A plain value. -/
inductive Value where
  | bool (bit : Bool)
  /-- An unsigned integer of up to 128 bits, which also stands for a wider one. -/
  | uint (number : BitVec 128)
  /-- A 256-bit integer as little-endian bytes. -/
  | uint256 (bytes : Chunk)
  /-- The bits of a bitvector or bitlist, first bit first. -/
  | bits (bits : List Bool)
  /-- The elements of a vector or list. -/
  | sequence (elements : List Value)
  /-- The members of a container, in the order of its fields. -/
  | container (members : List Value)
  /-- A union's selector, and its value unless the variant is the empty one. -/
  | union (selector : UInt32) (value : Option Value)

instance : Inhabited Value := ⟨.bool false⟩

namespace Value

/-- A sequence of bytes. -/
def ofBytes (bytes : Bytes) : Value :=
  sequence (bytes.map fun byte => uint (BitVec.ofNat 128 byte.toNat))

/-- A sequence of unsigned integers. -/
def ofUints (numbers : List (BitVec 128)) : Value :=
  sequence (numbers.map uint)

/-- The integer, if the value is one of at most 128 bits. -/
def asUint? : Value → Option (BitVec 128)
  | uint number => some number
  | _ => none

/-- The truth value, if the value is one. -/
def asBool? : Value → Option Bool
  | bool bit => some bit
  | _ => none

/-- The integer as a byte, if it is one. -/
def asByte? (value : Value) : Option UInt8 :=
  match value.asUint? with
  | some number => if number.toNat < 256 then some (UInt8.ofNat number.toNat) else none
  | none => none

/-- The bytes, if the value is a sequence of integers below 256. -/
def asBytes? : Value → Option Bytes
  | sequence elements => elements.mapM asByte?
  | _ => none

end Value

end Ssz
