import Ssz.Proofs.Bits
import Ssz.Proofs.Schema.Accepted
import Ssz.Proofs.Tree.Level
import Ssz.Proofs.Value.Scalar
import Ssz.Value.Tree

/-! Which tree holds which value: one canonical tree for each value, padded with zeros. -/

namespace Ssz

/-- A scalar schema is the one of its type. -/
theorem Schema.eq_scalar {schema : Schema} {type : Scalar} (packed : schema.scalar? = some type) :
    schema = .scalar type := by
  cases schema with
  | scalar own => cases packed; rfl
  | _ => cases packed

/--
A content tree holds elements: spellings of scalars lie side by side in the leaves, and other
elements own one position each. Whatever lies behind the last element is zero.
-/
def Tree.HoldsElements (element : Schema) (represents : Value → Tree → Prop)
    (elements : List Value) (depth : Nat) (content : Tree) : Prop :=
  -- Scalars share chunks, and each other element has a node of its own.
  match element.scalar? with
  | some type =>
    ∃ pieces : List Bytes, (∀ piece ∈ pieces, type.Spelled piece) ∧
      elements = pieces.map type.decode ∧ content = Tree.ofBytes depth pieces.flatten
  | none =>
    ∃ nodes, List.Forall₂ represents elements nodes ∧ content = Tree.ofNodes depth nodes

mutual

/-- A tree is the canonical one of a value of a schema. -/
def Schema.Represents : Schema → Value → Tree → Prop
  -- Each tree is given as a whole, so no chunk or node of it is left open.
  | .scalar type, value, tree =>
    ∃ bytes, type.Spelled bytes ∧ value = type.decode bytes ∧ tree = Tree.leafOfBytes bytes
  | .vector element length, value, tree =>
    ∃ elements, value = .sequence elements ∧ elements.length = length.toNat ∧
      Tree.HoldsElements element element.Represents elements (Schema.vector element length).depth
        tree
  | .list element maxLength, value, tree =>
    ∃ elements content, value = .sequence elements ∧ elements.length ≤ maxLength.toNat ∧
      Tree.HoldsElements element element.Represents elements (Schema.list element maxLength).depth
        content ∧
      tree = content.withLength (UInt64.ofNat elements.length)
  | .bitvector length, value, tree =>
    ∃ bits, value = .bits bits ∧ bits.length = length.toNat ∧
      tree = Tree.ofBytes (Schema.bitvector length).depth (packBits bits)
  | .bitlist maxLength, value, tree =>
    ∃ bits, value = .bits bits ∧ bits.length ≤ maxLength.toNat ∧
      tree = (Tree.ofBytes (Schema.bitlist maxLength).depth (packBits bits)).withLength
        (UInt64.ofNat bits.length)
  | .container fields, value, tree =>
    ∃ members nodes, value = .container members ∧ Schema.RepresentsFields fields members nodes ∧
      tree = Tree.ofNodes (Schema.container fields).depth nodes
  | .union variants, value, tree =>
    ∃ selector payload variant, value = .union selector payload ∧
      Schema.RepresentsVariant variants selector.toNat payload variant ∧
      tree = variant.withSelector selector

/-- Trees are those of the members of a container, one for each field. -/
def Schema.RepresentsFields : List Field → List Value → List Tree → Prop
  | [], [], [] => True
  | ⟨_, schema⟩ :: fields, member :: members, node :: nodes =>
    schema.Represents member node ∧ Schema.RepresentsFields fields members nodes
  | _, _, _ => False

/-- A tree is that of the selected variant of a union, a zero leaf for the empty variant. -/
def Schema.RepresentsVariant : List (Option Schema) → (selector : Nat) → Option Value → Tree → Prop
  | some schema :: _, 0, some value, tree => schema.Represents value tree
  | none :: _, 0, none, tree => tree = .leaf Chunk.zero
  | _ :: rest, selector + 1, payload, tree => Schema.RepresentsVariant rest selector payload tree
  | _, _, _, _ => False

end

namespace Tree

variable {element : Schema} {represents : Value → Tree → Prop} {elements : List Value}
  {depth : Nat} {content : Tree}

/-- A tree of packed scalars holds the values that their spellings stand for. -/
theorem holdsElements_packed {type : Scalar} (packed : element.scalar? = some type) :
    HoldsElements element represents elements depth content ↔
      ∃ pieces : List Bytes, (∀ piece ∈ pieces, type.Spelled piece) ∧
        elements = pieces.map type.decode ∧ content = ofBytes depth pieces.flatten := by
  rw [HoldsElements, packed]

/-- A tree of elements that are no scalars has a subtree for each. -/
theorem holdsElements_subtrees (own : element.scalar? = none) :
    HoldsElements element represents elements depth content ↔
      ∃ nodes, List.Forall₂ represents elements nodes ∧ content = ofNodes depth nodes := by
  rw [HoldsElements, own]

/-- Packed bytes are built into the full tree of those bytes. -/
theorem ofPacked_eq_ok {bytes : Bytes} (shallow : depth < 64)
    (fits : (bytes.length + 31) / 32 ≤ 2 ^ depth) :
    ofPacked bytes depth = .ok (ofBytes depth bytes) := by
  rw [ofPacked, fill_eq_ok shallow (by simpa using fits), ofNodes_packBytes]

/-- Packed bits are built into the full tree of their bytes. -/
theorem ofPacked_packBits {bits : List Bool} (shallow : depth < 64)
    (fits : (bits.length + 255) / 256 ≤ 2 ^ depth) :
    ofPacked (packBits bits) depth = .ok (ofBytes depth (packBits bits)) := by
  apply ofPacked_eq_ok shallow
  -- Eight bits to a byte and thirty-two bytes to a chunk make 256 bits to a chunk.
  rw [length_packBits]
  omega

/-- The elements that a content tree holds are built into that tree. -/
theorem ofSequence_of_holds {treeOf : Value → Except ViewError Tree} (shallow : depth < 64)
    (fits : element.elementChunks elements.length ≤ 2 ^ depth)
    (built : ∀ value tree, represents value tree → treeOf value = .ok tree)
    (holds : HoldsElements element represents elements depth content) :
    ofSequence element treeOf elements depth = .ok content := by
  cases own : element.scalar? with
  | some type =>
    -- Scalars are serialized and packed together before a tree is built.
    obtain ⟨pieces, spelled, rfl, rfl⟩ := (holdsElements_packed own).mp holds
    simp only [Schema.elementChunks, own, List.length_map] at fits
    simp only [ofSequence, own, Scalar.encodeAll_map_decode spelled, ok_bind]
    exact ofPacked_eq_ok shallow (Scalar.length_flatten spelled ▸ fits)
  | none =>
    -- Other elements get a tree each, and these are filled in side by side.
    obtain ⟨nodes, each, rfl⟩ := (holdsElements_subtrees own).mp holds
    simp only [Schema.elementChunks, own] at fits
    have members : elements.mapM treeOf = .ok nodes :=
      mapM_eq_ok.mpr (each.imp fun value tree => built value tree)
    simp only [ofSequence, own, members, ok_bind]
    exact fill_eq_ok shallow (each.length_eq ▸ fits)

/-- The bytes of a tree of packed bytes are read back. -/
theorem packedContent_ofBytes {bytes : Bytes} (shallow : depth < 64)
    (fits : (bytes.length + 31) / 32 ≤ 2 ^ depth) :
    (ofBytes depth bytes).packedContent depth bytes.length = .ok bytes := by
  -- The chunks are unpacked to the bytes and their padding, which is cut off.
  have chunks := chunksAtDepth_ofBytes shallow (by simpa using fits)
  rw [length_packBytes] at chunks
  simp only [packedContent, chunks, ok_bind, unpackBytes_packBytes, pure_eq_ok]

/-- The bits of a tree of packed bits are read back. -/
theorem packedBits_ofBytes {bits : List Bool} (shallow : depth < 64)
    (fits : (bits.length + 255) / 256 ≤ 2 ^ depth) :
    (ofBytes depth (packBits bits)).packedBits depth bits.length = .ok bits := by
  have room : ((packBits bits).length + 31) / 32 ≤ 2 ^ depth := by
    rw [length_packBits]
    omega
  -- The bytes are read first, and the bits behind the last one are cut off again.
  have bytes := packedContent_ofBytes shallow room
  rw [length_packBits] at bytes
  simp only [packedBits, bytes, ok_bind, unpackBits_packBits, pure_eq_ok]

/-- The elements that a content tree holds are read back from it. -/
theorem elements_of_holds {valueOf : Tree → Except ViewError Value} {length : UInt64}
    (shallow : depth < 64) (fits : element.elementChunks elements.length ≤ 2 ^ depth)
    (sized : elements.length = length.toNat)
    (read : ∀ value tree, represents value tree → valueOf tree = .ok value)
    (holds : HoldsElements element represents elements depth content) :
    content.elements element valueOf depth length = .ok elements := by
  cases own : element.scalar? with
  | some type =>
    obtain ⟨pieces, spelled, rfl, rfl⟩ := (holdsElements_packed own).mp holds
    simp only [Schema.elementChunks, own, List.length_map] at fits sized
    -- The bytes asked for are as many as the spellings have.
    have width := Scalar.length_flatten spelled
    have bytes := packedContent_ofBytes shallow (width ▸ fits)
    rw [width, sized] at bytes
    simp only [Tree.elements, own, bytes, ok_bind, Scalar.decodeAll_flatten spelled, pure_eq_ok]
  | none =>
    obtain ⟨nodes, each, rfl⟩ := (holdsElements_subtrees own).mp holds
    simp only [Schema.elementChunks, own] at fits
    -- The nodes asked for are as many as there are elements.
    have count : length = UInt64.ofNat nodes.length := by
      rw [← each.length_eq, sized, UInt64.ofNat_toNat]
    have members := nodesAtDepth_ofNodes shallow (each.length_eq ▸ fits)
    simp only [Tree.elements, own, count, members, ok_bind]
    exact mapM_eq_ok.mpr (each.flip.imp fun tree value => read value tree)

end Tree

end Ssz
