import Ssz.Schema.Build
import Ssz.Tree.Fill
import Ssz.Tree.Level
import Ssz.Value.Scalar

/-! The tree of a value under a schema, and the value read back from a tree. -/

namespace Ssz

/-- A list's tree: its content beside a leaf with its length. -/
def Tree.withLength (content : Tree) (length : UInt64) : Tree :=
  .branch content (.leaf (Chunk.ofLength length))

/-- A union's tree: its variant beside a leaf with its selector. -/
def Tree.withSelector (variant : Tree) (selector : UInt32) : Tree :=
  .branch variant (.leaf (Chunk.ofSelector selector))

/-- The tree of a depth whose leaves hold a byte string. -/
def Tree.ofPacked (bytes : Bytes) (depth : Nat) : Except ViewError Tree :=
  Tree.fill ((packBytes bytes).map Tree.leaf) depth

/-- The content tree of a sequence, whose scalar elements share leaves. -/
def Tree.ofSequence (element : Schema) (treeOf : Value → Except ViewError Tree)
    (elements : List Value) (depth : Nat) : Except ViewError Tree :=
  -- Scalars are packed into chunks, and each other element has a node of its own.
  match element.scalar? with
  | some type => do Tree.ofPacked (← type.encodeAll elements) depth
  | none => do Tree.fill (← elements.mapM treeOf) depth

mutual

/-- The tree of a value, or the first reason why the value does not inhabit the schema. -/
def Schema.treeOf : Schema → Value → Except ViewError Tree
  | .scalar type, value => do
    return Tree.leafOfBytes (← type.encode value)
  | .vector element length, .sequence elements =>
    -- Every check on the length comes before the first element is built.
    if elements.length ≠ length.toNat then .error (.typeMismatch .vectorLength)
    else Tree.ofSequence element element.treeOf elements (Schema.vector element length).depth
  | .list element maxLength, .sequence elements =>
    if maxLength.toNat < elements.length then
      .error (.lengthExceedsMax elements.length maxLength.toNat)
    else do
      let content ←
        Tree.ofSequence element element.treeOf elements (Schema.list element maxLength).depth
      return content.withLength (UInt64.ofNat elements.length)
  | .bitvector length, .bits bits =>
    if bits.length ≠ length.toNat then .error (.typeMismatch .bitvectorLength)
    else Tree.ofPacked (packBits bits) (Schema.bitvector length).depth
  | .bitlist maxLength, .bits bits =>
    if maxLength.toNat < bits.length then .error (.lengthExceedsMax bits.length maxLength.toNat)
    else do
      let content ← Tree.ofPacked (packBits bits) (Schema.bitlist maxLength).depth
      return content.withLength (UInt64.ofNat bits.length)
  | .container fields, .container members =>
    if members.length ≠ fields.length then .error (.typeMismatch .valuePerField)
    else do
      Tree.fill (← Schema.treesOf fields members) (Schema.container fields).depth
  | .union variants, .union selector value =>
    if variants.length ≤ selector.toNat then
      .error (.unionSelectorOutOfRange selector.toNat variants.length)
    else do
      return (← Schema.variantTree variants selector.toNat value).withSelector selector
  | schema, _ => .error (.typeMismatch (.kind schema.kind))

/-- The trees of the members of a container. -/
def Schema.treesOf : List Field → List Value → Except ViewError (List Tree)
  | ⟨_, schema⟩ :: fields, member :: members => do
    let tree ← schema.treeOf member
    return tree :: (← Schema.treesOf fields members)
  | _, _ => .ok []

/-- The tree below the selector of a union, whose empty variant is a zero leaf. -/
def Schema.variantTree : List (Option Schema) → (selector : Nat) → Option Value →
    Except ViewError Tree
  | some schema :: _, 0, some value => schema.treeOf value
  | none :: _, 0, none => .ok (Tree.zero 0)
  | _ :: rest, selector + 1, value => Schema.variantTree rest selector value
  | _, _, _ => .error (.typeMismatch .unionPayload)

end

/-- The content and the length of a list's tree. -/
def Tree.listParts : Tree → Except ViewError (Tree × UInt64)
  | .leaf _ => .error (.gindexOutOfBounds 2)
  | .branch content length =>
    match length.chunk? with
    | some chunk => .ok (content, chunk.length)
    | none => .error (.gindexOutOfBounds 3)

/-- The variant and the selector of a union's tree, whose selector lies in range. -/
def Tree.unionParts (variants : List (Option Schema)) : Tree → Except ViewError (Tree × UInt32)
  | .leaf _ => .error (.gindexOutOfBounds 2)
  | .branch variant selector =>
    match selector.chunk? with
    | some chunk =>
      -- A selector that names no variant has no payload to read.
      if variants.length ≤ chunk.selector.toNat then
        .error (.unionSelectorOutOfRange chunk.selector.toNat variants.length)
      else .ok (variant, chunk.selector)
    | none => .error (.gindexOutOfBounds 3)

/-- The first `length` bytes of the leaves of a tree of a depth. -/
def Tree.packedContent (tree : Tree) (depth length : Nat) : Except ViewError Bytes := do
  return (unpackBytes (← tree.chunksAtDepth depth (UInt64.ofNat ((length + 31) / 32)))).take length

/-- The first `length` bits of the leaves of a tree of a depth. -/
def Tree.packedBits (tree : Tree) (depth length : Nat) : Except ViewError (List Bool) := do
  return (unpackBits (← tree.packedContent depth ((length + 7) / 8))).take length

/-- The elements of a sequence read from its content tree. -/
def Tree.elements (element : Schema) (valueOf : Tree → Except ViewError Value) (content : Tree)
    (depth : Nat) (length : UInt64) : Except ViewError (List Value) :=
  -- Scalars are read from the packed bytes, and others from their nodes.
  match element.scalar? with
  | some type => do
    return type.decodeAll (← content.packedContent depth (length.toNat * type.byteLength))
  | none => do (← content.nodesAtDepth depth length).mapM valueOf

mutual

/-- The value that a tree of a schema holds. -/
def Schema.valueOf : Schema → Tree → Except ViewError Value
  | .scalar type, tree =>
    match tree.chunk? with
    | some chunk => .ok (type.decode (chunk.slice 0 type.byteLength))
    | none => .error (.gindexOutOfBounds Gindex.root)
  | .vector element length, tree => do
    let depth := (Schema.vector element length).depth
    return .sequence (← tree.elements element element.valueOf depth length)
  | .list element maxLength, tree => do
    let (content, length) ← tree.listParts
    let depth := (Schema.list element maxLength).depth
    return .sequence (← content.elements element element.valueOf depth length)
  | .bitvector length, tree => do
    return .bits (← tree.packedBits (Schema.bitvector length).depth length.toNat)
  | .bitlist maxLength, tree => do
    let (content, length) ← tree.listParts
    return .bits (← content.packedBits (Schema.bitlist maxLength).depth length.toNat)
  | .container fields, tree => do
    let members ← tree.nodesAtDepth (Schema.container fields).depth (UInt64.ofNat fields.length)
    return .container (← Schema.valuesOf fields members)
  | .union variants, tree => do
    let (variant, selector) ← tree.unionParts variants
    return .union selector (← Schema.variantValue variants selector.toNat variant)

/-- The values of the members of a container. -/
def Schema.valuesOf : List Field → List Tree → Except ViewError (List Value)
  | ⟨_, schema⟩ :: fields, member :: members => do
    let value ← schema.valueOf member
    return value :: (← Schema.valuesOf fields members)
  | _, _ => .ok []

/-- The value of the selected variant of a union, none for the empty variant. -/
def Schema.variantValue : List (Option Schema) → (selector : Nat) → Tree →
    Except ViewError (Option Value)
  | some schema :: _, 0, tree => do return some (← schema.valueOf tree)
  | _ :: rest, selector + 1, tree => Schema.variantValue rest selector tree
  | _, _, _ => .ok none

end

end Ssz
