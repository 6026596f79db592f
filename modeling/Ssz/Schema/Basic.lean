import Ssz.Schema.Kind

/-! Schemas: the types whose values are serialized and hashed. -/

namespace Ssz

mutual

/-- The shape of a type. -/
inductive Schema where
  | scalar (type : Scalar)
  | vector (element : Schema) (length : UInt64)
  | list (element : Schema) (maxLength : UInt64)
  | bitvector (length : UInt64)
  | bitlist (maxLength : UInt64)
  | container (fields : List Field)
  /-- An absent variant has no value. -/
  | union (variants : List (Option Schema))

/-- A named member of a container. -/
structure Field where
  name : String
  schema : Schema

end

instance : Inhabited Schema := ⟨.scalar .boolean⟩

namespace Schema

/-- The kind of a schema. -/
def kind : Schema → Kind
  | scalar type => .scalar type
  | vector _ _ => .vector
  | list _ _ => .list
  | bitvector _ => .bitvector
  | bitlist _ => .bitlist
  | container _ => .container
  | union _ => .union

/-- The scalar type of a scalar schema. -/
def scalar? : Schema → Option Scalar
  | scalar type => some type
  | _ => none

/-- The type of the elements that a sequence packs into chunks. -/
def packedElement? : Schema → Option Scalar
  | vector element _ | list element _ => element.scalar?
  | _ => none

/-- How many elements of a packed sequence, or bits of a bitfield, share one chunk. -/
def elementsPerChunk? : Schema → Option Nat
  | bitvector _ | bitlist _ => some 256
  | schema => schema.packedElement?.map Scalar.perChunk

/-- Whether a value's length is stored beside its content. -/
def hasLength : Schema → Bool
  | list _ _ | bitlist _ => true
  | _ => false

/-- The number of leaf chunks that `count` elements need. -/
def elementChunks (element : Schema) (count : Nat) : Nat :=
  match element.scalar? with
  | some type => (count * type.byteLength + 31) / 32
  | none => count

/-- The number of leaf chunks, or of subtrees, at full capacity. -/
def chunkCount : Schema → Nat
  | scalar _ | union _ => 1
  | vector element length => element.elementChunks length.toNat
  | list element maxLength => element.elementChunks maxLength.toNat
  | bitvector length => (length.toNat + 255) / 256
  | bitlist maxLength => (maxLength.toNat + 255) / 256
  | container fields => fields.length

/-- The least depth of a tree with at least `count` leaves. -/
def depthFor (count : Nat) : Nat :=
  if count ≤ 1 then 0 else (count - 1).log2 + 1

/-- The depth of the content tree; lengths and selectors are mixed in one level above it. -/
def depth (schema : Schema) : Nat :=
  depthFor schema.chunkCount

end Schema

end Ssz
