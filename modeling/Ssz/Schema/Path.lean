import Ssz.Error
import Ssz.Gindex
import Ssz.Schema.Build
import Ssz.Schema.Equality

/-! Where the members of a value lie in its tree, and the positions that paths of keys lead to. -/

namespace Ssz

/-- What names a member of a composite value. -/
inductive Key where
  /-- An element, a bit, a field by its place, or a union variant by its selector. -/
  | index (index : UInt64)
  /-- A container field by its name. -/
  | name (name : String)
  deriving DecidableEq, Repr

/-- Where a member lives in the tree of its parent. -/
inductive Slot where
  /-- The member owns the subtree at a position. -/
  | subtree (gindex : Gindex) (schema : Schema)
  /-- The member is a scalar in the chunk at a position. -/
  | packed (gindex : Gindex) (offset : Nat) (type : Scalar)
  /-- The member is a bit of the chunk at a position. -/
  | bit (gindex : Gindex) (position : Nat)
  deriving DecidableEq

/-- The position of the subtree or chunk that holds the member. -/
def Slot.gindex : Slot → Gindex
  | subtree gindex _ | packed gindex _ _ | bit gindex _ => gindex

namespace Schema

/-- The place of a named field among the fields of a container. -/
def fieldIndex (schema : Schema) (name : String) : Except ViewError Nat :=
  match schema with
  | container fields =>
    match fields.findIdx? fun field => field.name = name with
    | some index => .ok index
    | none => .error (.unknownField name)
  | other => .error (.notComposite other.kind)

/-- The slot of an element in a content tree whose chunks lie at a depth. -/
def sequenceSlot (element : Schema) (index : UInt64) (depth : Nat) : Slot :=
  match element.scalar? with
  | some type =>
    -- Scalars share chunks: the quotient is the chunk, the remainder the place in it.
    let share := UInt64.ofNat type.perChunk
    .packed (Gindex.ofDepthIndex depth (index / share)) ((index % share).toNat * type.byteLength)
      type
  | none => .subtree (Gindex.ofDepthIndex depth index) element

/-- The slot of a bit in a content tree whose chunks lie at a depth. -/
def bitSlot (index : UInt64) (depth : Nat) : Slot :=
  .bit (Gindex.ofDepthIndex depth (index / 256)) (index % 256).toNat

/-- The slot, if the index lies below its bound. -/
def slotBelow (index bound : UInt64) (slot : Slot) : Except ViewError Slot :=
  if index < bound then .ok slot else .error (.indexOutOfBounds index.toNat bound.toNat)

/-- The slot of a numbered member; `bound` replaces the declared capacity of a live list. -/
def slotAt (schema : Schema) (index : UInt64) (bound : Option UInt64) : Except ViewError Slot :=
  match schema with
  | scalar type => .error (.notComposite (.scalar type))
  | container fields =>
    match fields[index.toNat]? with
    | some field => .ok (.subtree (Gindex.ofDepthIndex schema.depth index) field.schema)
    | none => .error (.indexOutOfBounds index.toNat fields.length)
  | vector element length => slotBelow index length (sequenceSlot element index schema.depth)
  -- The content of a list is the left child of its root, one level down.
  | list element maxLength =>
    slotBelow index (bound.getD maxLength) (sequenceSlot element index (schema.depth + 1))
  | bitvector length => slotBelow index length (bitSlot index schema.depth)
  | bitlist maxLength =>
    slotBelow index (bound.getD maxLength) (bitSlot index (schema.depth + 1))
  | union variants =>
    match variants[index.toNat]? with
    | some (some variant) => .ok (.subtree 2 variant)
    -- The selector is reported as the 32-bit word that a union stores.
    | _ => .error (.unionSelectorOutOfRange index.toUInt32.toNat variants.length)

/-- The slot of a member; `bound` replaces the declared capacity of a live list. -/
def slot (schema : Schema) (key : Key) (bound : Option UInt64) : Except ViewError Slot :=
  match key with
  | .index index => schema.slotAt index bound
  | .name name => do schema.slotAt (UInt64.ofNat (← schema.fieldIndex name)) bound

/-- The position of a container field. -/
def fieldGindex (schema : Schema) (name : String) : Except ViewError Gindex := do
  return Gindex.ofDepthIndex schema.depth (UInt64.ofNat (← schema.fieldIndex name))

/-- The position of the subtree or chunk that holds an element. -/
def elementGindex (schema : Schema) (index : UInt64) : Except ViewError Gindex := do
  return (← schema.slotAt index none).gindex

/-- The position of the length of a list or bitlist. -/
def lengthGindex (schema : Schema) : Except ViewError Gindex :=
  if schema.hasLength then .ok 3 else .error (.typeMismatch .listOrBitlist)

/-- The positions of the variant and of the selector of a union. -/
def variantGindex : Schema → Except ViewError (Gindex × Gindex)
  | union _ => .ok (2, 3)
  | _ => .error (.typeMismatch (.kind .union))

/-- The error of a path that goes on below a packed scalar or a bit of this sequence. -/
def pathTooLong (schema : Schema) : ViewError :=
  match schema.packedElement? with
  | some type => .notComposite (.scalar type)
  | none => .bitNotComposite

/-- The position that a path leads to, for a value that itself lies at the position `reached`. -/
def gindexBelow (schema : Schema) (reached : Gindex) : (path : List Key) → Except ViewError Gindex
  | [] => .ok reached
  | key :: rest => do
    let slot ← schema.slot key none
    match reached.concat slot.gindex with
    | none => throw (.gindexOutOfBounds reached)
    | some next =>
      match slot with
      | .subtree _ member => gindexBelow member next rest
      -- A packed scalar or a bit has no position of its own, so it ends the path.
      | _ => if rest.isEmpty then return next else throw schema.pathTooLong

/-- The position that a path of keys leads to from the root of a value. -/
def gindexOf (schema : Schema) (path : List Key) : Except ViewError Gindex :=
  schema.gindexBelow Gindex.root path

end Schema

end Ssz
