import Ssz.Tree.Batch
import Ssz.View.Update

/-! Builders: field updates of a container that are gathered and written in one pass. -/

namespace Ssz

/-- A container with updates of its fields, in the order they were asked for. -/
structure Builder where
  base : View
  updates : List (UInt64 × Tree)

/-- A builder without updates, on a container. -/
def View.builder (view : View) : Except ViewError Builder :=
  match view.schema.kind with
  | .container => .ok ⟨view, []⟩
  | _ => .error (.typeMismatch (.kind .container))

namespace Builder

/-- The place and the schema of the field under a key. -/
def fieldSlot (builder : Builder) (key : Key) : Except ViewError (UInt64 × Schema) := do
  match ← builder.base.schema.slot key none with
  | .subtree gindex schema => return (gindex.indexAtDepth, schema)
  | _ => throw (.typeMismatch (.kind .container))

/-- The builder with one more update at the end. -/
def push (builder : Builder) (index : UInt64) (tree : Tree) : Builder :=
  { builder with updates := builder.updates ++ [(index, tree)] }

/-- Asks for a field to be replaced by a value. -/
def set (builder : Builder) (key : Key) (value : Value) : Except ViewError Builder := do
  let (index, schema) ← builder.fieldSlot key
  return builder.push index (← schema.treeOf value)

/-- Asks for a field to be replaced by another view of the field's schema. -/
def setView (builder : Builder) (key : Key) (member : View) : Except ViewError Builder := do
  let (index, schema) ← builder.fieldSlot key
  if schema ≠ member.schema then throw .schemaMismatch
  return builder.push index member.tree

/-- The container with all updates made, as if one after the other. -/
def commit (builder : Builder) : Except ViewError View := do
  let base := builder.base
  return base.withTree (← base.tree.updateMany base.schema.depth builder.updates)

end Builder

end Ssz
