import Ssz.Schema.Equality
import Ssz.View.Access

/-! Updating views: each update gives a new view that shares everything it did not touch. -/

namespace Ssz.View

/-- The view with the same schema over another tree. -/
def withTree (view : View) (tree : Tree) : View :=
  { view with tree }

/-- The tree with bytes written into the chunk at a position. -/
def writeBytes (view : View) (gindex : Gindex) (offset : Nat) (bytes : Bytes) :
    Except ViewError Tree := do
  let chunk ← view.tree.chunkAt gindex
  view.tree.update gindex (.leaf (chunk.patch offset bytes))

/-- The tree with a bit written into the chunk at a position. -/
def writeBit (view : View) (gindex : Gindex) (position : Nat) (bit : Bool) :
    Except ViewError Tree := do
  let chunk ← view.tree.chunkAt gindex
  view.tree.update gindex (.leaf (chunk.setBit position bit))

/-- The tree with a value written into a slot. -/
def writeValue (view : View) (slot : Slot) (value : Value) : Except ViewError Tree :=
  match slot with
  | .subtree gindex schema => do view.tree.update gindex (← schema.treeOf value)
  | .packed gindex offset type => do view.writeBytes gindex offset (← type.encode value)
  | .bit gindex position =>
    match value.asBool? with
    | some bit => view.writeBit gindex position bit
    | none => .error (.typeMismatch (.kind (.scalar .boolean)))

/-- The tree with a member's own tree or content put into a slot of the member's schema. -/
def writeView (view : View) (slot : Slot) (member : View) : Except ViewError Tree :=
  match slot with
  | .subtree gindex schema =>
    -- The whole tree of the member is taken over, with its root.
    if schema ≠ member.schema then .error .schemaMismatch
    else view.tree.update gindex member.tree
  | .packed gindex offset type =>
    if member.schema.scalar? ≠ some type then .error .schemaMismatch
    else do
      let chunk ← member.tree.chunkAt Gindex.root
      view.writeBytes gindex offset (chunk.slice 0 type.byteLength)
  | .bit gindex position =>
    if member.schema.scalar? ≠ some .boolean then .error .schemaMismatch
    else do view.writeBit gindex position (← member.asBool)

/-- The union switched to a selector, with a value unless the variant is the empty one. -/
def setVariant (view : View) (selector : UInt32) (value : Option Value) : Except ViewError View :=
  match view.schema.kind with
  | .union => ofValue view.schema (.union selector value)
  | _ => .error (.typeMismatch (.kind .union))

/-- The union switched to a selector, with a view unless the variant is the empty one. -/
def setVariantView (view : View) (selector : UInt32) (member : Option View) :
    Except ViewError View :=
  match view.schema with
  | .union variants =>
    match variants[selector.toNat]?, member with
    | none, _ => .error (.unionSelectorOutOfRange selector.toNat variants.length)
    | some none, none => .ok (view.withTree ((Tree.zero 0).withSelector selector))
    | some (some schema), some member =>
      if schema = member.schema then .ok (view.withTree (member.tree.withSelector selector))
      else .error .schemaMismatch
    | some _, _ => .error (.typeMismatch .unionPayload)
  | _ => .error (.typeMismatch (.kind .union))

/-- The 32-bit selector that a key names, where too large an index names the greatest one. -/
def selectorOf : Key → Except ViewError UInt32
  | .name _ => .error (.notComposite .union)
  | .index index => .ok (if index.toNat < UInt32.size then index.toUInt32 else 0xFFFFFFFF)

/-- The view with the member under a key replaced by a value. -/
def set (view : View) (key : Key) (value : Value) : Except ViewError View :=
  match view.schema.kind with
  | .union => do view.setVariant (← selectorOf key) (some value)
  | _ => do
    -- The current length bounds the key, so no element is made here.
    let slot ← view.schema.slot key (← view.bound)
    return view.withTree (← view.writeValue slot value)

/-- The view with the member under a key replaced by another view of the member's schema. -/
def setView (view : View) (key : Key) (member : View) : Except ViewError View :=
  match view.schema.kind with
  | .union => do view.setVariantView (← selectorOf key) (some member)
  | _ => do
    let slot ← view.schema.slot key (← view.bound)
    return view.withTree (← view.writeView slot member)

/-- The bitfield with one bit replaced. -/
def setBit (view : View) (index : UInt64) (bit : Bool) : Except ViewError View :=
  view.set (.index index) (.bool bit)

/-- The greatest length of a list or bitlist. -/
def maxLength (view : View) : Except ViewError UInt64 :=
  match view.schema with
  | .list _ maxLength | .bitlist maxLength => .ok maxLength
  | _ => .error (.typeMismatch .listOrBitlist)

/-- The list with one more element at its end. -/
def append (view : View) (value : Value) : Except ViewError View := do
  let max ← view.maxLength
  let (_, length) ← view.tree.listParts
  if max ≤ length then throw (.lengthExceedsMax (length.toNat + 1) max.toNat)
  -- The slot is looked up in the longer list, while the stored length is still the old one.
  let slot ← view.schema.slotAt length (some (length + 1))
  match (← view.writeValue slot value).children? with
  | some (content, _) => return view.withTree (content.withLength (length + 1))
  | none => throw (.gindexOutOfBounds 2)

/-- The bitlist with one more bit at its end. -/
def appendBit (view : View) (bit : Bool) : Except ViewError View :=
  view.append (.bool bit)

/-- The list with more elements at its end, in order. -/
def extend (view : View) (values : List Value) : Except ViewError View :=
  values.foldlM append view

end Ssz.View
