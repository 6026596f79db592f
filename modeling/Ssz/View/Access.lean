import Ssz.View.Basic

/-! Reading the members of a view. -/

namespace Ssz.View

/-- The variant and the selector of a union. -/
def unionParts (view : View) : Except ViewError (Tree × UInt32) :=
  match view.schema with
  | .union variants => view.tree.unionParts variants
  | _ => .error (.typeMismatch (.kind .union))

/-- The selector of a union. -/
def selector (view : View) : Except ViewError UInt32 := do
  return (← view.unionParts).2

/-- The selected variant of a union, none for the empty variant. -/
def variant (view : View) : Except ViewError (Option View) :=
  match view.schema with
  | .union variants => do
    let (tree, selector) ← view.tree.unionParts variants
    return variants[selector.toNat]?.join.map fun schema => ⟨schema, tree⟩
  | _ => .error (.typeMismatch (.kind .union))

/-- The selected variant of a union, asked for by its selector. -/
def variantAt (view : View) (key : Key) : Except ViewError View :=
  match key with
  | .name _ => .error (.notComposite .union)
  | .index requested => do
    if requested ≠ (← view.selector).toUInt64 then throw (.typeMismatch .selectedVariant)
    match ← view.variant with
    | some found => return found
    | none => throw (.typeMismatch .variantValue)

/-- The member in a slot: a subtree, or a scalar or bit moved into a leaf of its own. -/
def memberIn (view : View) : Slot → Except ViewError View
  | .subtree gindex schema => do return ⟨schema, ← view.tree.navigate gindex⟩
  | .packed gindex offset type => do
    -- A packed member has no node, so a leaf is made from its share of the chunk.
    let chunk ← view.tree.chunkAt gindex
    return ⟨.scalar type, Tree.leafOfBytes (chunk.slice offset (offset + type.byteLength))⟩
  | .bit gindex position => do
    let chunk ← view.tree.chunkAt gindex
    return ⟨.scalar .boolean, Tree.leafOfBytes [if chunk.getBit position then 1 else 0]⟩

/-- The member under a key: a field, an element, a bit, or the selected variant of a union. -/
def get (view : View) (key : Key) : Except ViewError View :=
  match view.schema.kind with
  | .union => view.variantAt key
  | _ => do view.memberIn (← view.schema.slot key (← view.bound))

/-- The member with a number. -/
def getAt (view : View) (index : UInt64) : Except ViewError View :=
  view.get (.index index)

/-- The field with a name. -/
def getField (view : View) (name : String) : Except ViewError View :=
  view.get (.name name)

/-- The integer under a key. -/
def getUint (view : View) (key : Key) : Except ViewError (BitVec 128) := do
  (← view.get key).asUint

/-- The truth value under a key. -/
def getBool (view : View) (key : Key) : Except ViewError Bool := do
  (← view.get key).asBool

/-- The bit of a bitfield with a number. -/
def getBit (view : View) (index : UInt64) : Except ViewError Bool :=
  view.getBool (.index index)

end Ssz.View
