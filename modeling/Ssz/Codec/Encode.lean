import Ssz.Value.Tree

/-! Serialization of a tree under a schema: fixed parts and offsets first, variable parts after. -/

namespace Ssz

/-- The greatest offset that four bytes hold. -/
def maxOffset : Nat := UInt32.size - 1

/-- A member of a composite: whether it is reached by an offset, and its serialization. -/
structure Part where
  isVariable : Bool
  bytes : Except ViewError Bytes

/-- The fixed and the variable bytes of parts, whose variable bytes begin at a position. -/
def layOut (position : Nat) : List Part → Except ViewError (Bytes × Bytes)
  | [] => .ok ([], [])
  | part :: rest =>
    if part.isVariable then
      -- The offset is checked before the part that it points to is encoded.
      if maxOffset < position then .error (.lengthExceedsMax position maxOffset)
      else do
        let bytes ← part.bytes
        let (front, back) ← layOut (position + bytes.length) rest
        return (littleEndian bytesPerOffset position ++ front, bytes ++ back)
    else do
      let bytes ← part.bytes
      -- Parts of a fixed size stay in front, and move no later offset.
      let (front, back) ← layOut position rest
      return (bytes ++ front, back)

/-- The serialization of a composite whose parts have a fixed part of the given size. -/
def joinParts (fixedSize : Nat) (parts : List Part) : Except ViewError Bytes := do
  let (front, back) ← layOut fixedSize parts
  return front ++ back

/-- The serialization of a sequence read from its content tree. -/
def Tree.encodeElements (element : Schema) (encode : Tree → Except ViewError Bytes) (content : Tree)
    (depth : Nat) (length : UInt64) : Except ViewError Bytes :=
  match element.scalar? with
  | some type => content.packedContent depth (length.toNat * type.byteLength)
  | none => do
    let members ← content.nodesAtDepth depth length
    -- All elements have one schema, so all of them are inline or none is.
    let isVariable := !element.isFixedSize
    joinParts (members.length * element.fixedPart)
      (members.map fun member => ⟨isVariable, encode member⟩)

/-- The packed bits of a bitlist followed by a sentinel bit right after the last one. -/
def markEnd (bytes : Bytes) (length : Nat) : Bytes :=
  let padded := if length % 8 = 0 then bytes ++ [0] else bytes
  padded.modify (length / 8) fun byte => byte ||| (1 <<< UInt8.ofNat (length % 8))

mutual

/-- The serialization of the value that a tree of a schema holds. -/
def Schema.encode : Schema → Tree → Except ViewError Bytes
  | .scalar type, tree =>
    match tree.chunk? with
    | some chunk => .ok (chunk.slice 0 type.byteLength)
    | none => .error (.gindexOutOfBounds Gindex.root)
  | .vector element length, tree =>
    tree.encodeElements element element.encode (Schema.vector element length).depth length
  | .list element maxLength, tree => do
    let (content, length) ← tree.listParts
    -- The stored length is checked, because it is read from the tree.
    if maxLength < length then throw (.lengthExceedsMax length.toNat maxLength.toNat)
    content.encodeElements element element.encode (Schema.list element maxLength).depth length
  | .bitvector length, tree =>
    tree.packedContent (Schema.bitvector length).depth ((length.toNat + 7) / 8)
  | .bitlist maxLength, tree => do
    let (content, length) ← tree.listParts
    if maxLength < length then throw (.lengthExceedsMax length.toNat maxLength.toNat)
    let bytes ←
      content.packedContent (Schema.bitlist maxLength).depth ((length.toNat + 7) / 8)
    -- The mark follows the last bit, in a byte of its own if the last one is full.
    return markEnd bytes length.toNat
  | .container fields, tree => do
    let members ← tree.nodesAtDepth (Schema.container fields).depth (UInt64.ofNat fields.length)
    joinParts (Schema.fixedEnd fields) (Schema.partsOf fields members)
  | .union variants, tree => do
    let (variant, selector) ← tree.unionParts variants
    let bytes ← Schema.encodeVariant variants selector.toNat variant
    return littleEndian bytesPerOffset selector.toNat ++ bytes

/-- The parts of the members of a container. -/
def Schema.partsOf : List Field → List Tree → List Part
  | ⟨_, schema⟩ :: fields, member :: members =>
    ⟨!schema.isFixedSize, schema.encode member⟩ :: Schema.partsOf fields members
  | _, _ => []

/-- The serialization of the selected variant of a union, empty for the empty variant. -/
def Schema.encodeVariant : List (Option Schema) → (selector : Nat) → Tree → Except ViewError Bytes
  | some schema :: _, 0, tree => schema.encode tree
  | _ :: rest, selector + 1, tree => Schema.encodeVariant rest selector tree
  | _, _, _ => .ok []

end

end Ssz
