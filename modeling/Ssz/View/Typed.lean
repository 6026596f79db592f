import Ssz.View.Basic

/-! Views known to have one fixed schema. -/

namespace Ssz

/-- A view of the given schema. -/
structure TypedView (schema : Schema) where
  view : View
  schema_eq : view.schema = schema

namespace TypedView

/-- The view as one of the given schema, if it is one. -/
def ofView (schema : Schema) (view : View) : Except ViewError (TypedView schema) :=
  if same : view.schema = schema then .ok ⟨view, same⟩ else .error .schemaMismatch

/-- The default value of the schema. -/
def ofDefault (schema : Schema) : TypedView schema :=
  ⟨View.ofDefault schema, rfl⟩

/-- The value of the schema that bytes serialize. -/
def decode (schema : Schema) (bytes : Bytes) : Except DecodeError (TypedView schema) := do
  return ⟨⟨schema, ← schema.decode bytes⟩, rfl⟩

/-- The serialization of the value. -/
def encode {schema : Schema} (typed : TypedView schema) : Except ViewError Bytes :=
  typed.view.encode

/-- The Merkle root of the value. -/
def root {schema : Schema} (typed : TypedView schema) : Chunk :=
  typed.view.root

end TypedView

/-- The schema of checkpoints: an epoch and the root of a block. -/
def checkpointSchema : Schema :=
  .container [⟨"epoch", .scalar .uint64⟩, ⟨"root", Schema.bytes32⟩]

/-- The schema of records: one member of a fixed size, and two whose contents grow. -/
def recordSchema : Schema :=
  .container [⟨"id", .scalar .uint16⟩, ⟨"data", .list (.scalar .uint8) 8⟩, ⟨"bits", .bitlist 10⟩]

/-- A checkpoint. -/
abbrev Checkpoint := TypedView checkpointSchema

end Ssz
