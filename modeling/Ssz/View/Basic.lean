import Ssz.Codec.Decode
import Ssz.Codec.Encode
import Ssz.Opening
import Ssz.Schema.Path
import Ssz.Value.Default

/-! Views: trees read as values of a schema. -/

namespace Ssz

/-- A schema with the tree of one of its values. -/
structure View where
  schema : Schema
  tree : Tree

namespace View

/-- The view of the default value of a schema. -/
def ofDefault (schema : Schema) : View :=
  ⟨schema, schema.defaultTree⟩

/-- The view of a value, which has to inhabit the schema. -/
def ofValue (schema : Schema) (value : Value) : Except ViewError View := do
  return ⟨schema, ← schema.treeOf value⟩

/-- The view of the value that bytes serialize. -/
def decode (schema : Schema) (bytes : Bytes) : Except DecodeError View := do
  return ⟨schema, ← schema.decode bytes⟩

/-- The value of a view. -/
def toValue (view : View) : Except ViewError Value :=
  view.schema.valueOf view.tree

/-- The serialization of the value of a view. -/
def encode (view : View) : Except ViewError Bytes :=
  view.schema.encode view.tree

/-- The Merkle root of a view. -/
def root (view : View) : Chunk :=
  view.tree.root

/-- Whether two views have the same schema and the same root. -/
def agrees (first second : View) : Bool :=
  first.schema = second.schema && first.tree.sameRoot second.tree

/-- How a view is written: its kind and its root. -/
def describe (view : View) : String :=
  "View \x7b kind: \"" ++ view.schema.kind.name ++ "\", root: 0x" ++ view.root.toHex ++ " \x7d"

/-- The number of elements, bits or fields. -/
def length (view : View) : Except ViewError UInt64 :=
  match view.schema with
  | .vector _ length | .bitvector length => .ok length
  | .list _ _ | .bitlist _ => do return (← view.tree.listParts).2
  | .container fields => .ok (UInt64.ofNat fields.length)
  | schema => .error (.notComposite schema.kind)

/-- Whether there are no elements, bits or fields. -/
def isEmpty (view : View) : Except ViewError Bool := do
  return (← view.length) == 0

/-- The bound on the indices of a live list; none where the declared capacity counts. -/
def bound (view : View) : Except ViewError (Option UInt64) := do
  if view.schema.hasLength then return some (← view.tree.listParts).2 else return none

/-- The integer of a scalar view, if it takes at most 128 bits. -/
def asUint (view : View) : Except ViewError (BitVec 128) := do
  match ← view.toValue with
  | .uint number => return number
  | .uint256 bytes =>
    -- A wide integer is short if its upper half is zero.
    if (bytes.slice 16 32).all (· == 0) then
      return BitVec.ofNat 128 (ofLittleEndian (bytes.slice 0 16))
    else throw (.typeMismatch .shortUint)
  | _ => throw (.typeMismatch .shortUint)

/-- The truth value of a boolean view. -/
def asBool (view : View) : Except ViewError Bool := do
  match ← view.toValue with
  | .bool bit => return bit
  | _ => throw (.typeMismatch (.kind (.scalar .boolean)))

/-- The proof of the node at a position, relative to the root of the view. -/
def prove (view : View) (gindex : Gindex) : Except ViewError MerkleProof :=
  view.tree.prove gindex

end View

end Ssz
