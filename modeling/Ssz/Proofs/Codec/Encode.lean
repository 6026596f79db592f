import Ssz.Proofs.Codec.Bits
import Ssz.Proofs.Codec.Size

/-! Encoding a canonical tree: it gives the serialization of the value whenever offsets fit. -/

namespace Ssz

/-- The parts of the nodes of elements yield the pieces of the elements whose offsets fit. -/
theorem Part.yields_elements {element : Schema} {elements : List Value} {nodes : List Tree}
    (each : List.Forall₂ element.Represents elements nodes)
    (encoded : ∀ (value : Value) (tree : Tree) (bytes : Bytes), element.Represents value tree →
      (element.encode tree = .ok bytes ↔
        element.OffsetsFit value ∧ element.serialize value = bytes)) (pieces : List Piece) :
    List.Forall₂ Part.Yields
        (nodes.map fun node => ⟨!element.isFixedSize, element.encode node⟩) pieces ↔
      (∀ member ∈ elements, element.OffsetsFit member) ∧
        element.elementPieces elements = pieces := by
  induction each generalizing pieces with
  | nil => simp [Schema.elementPieces, eq_comm]
  | @cons member node members nodes head _ ih =>
    -- The head and the rest are independent, so each settles its own half of the statement.
    simp only [List.map_cons, List.forall₂_cons_left_iff, ih, Schema.elementPieces, Part.Yields,
      encoded member node _ head, List.mem_cons, forall_eq_or_imp]
    constructor
    · rintro ⟨⟨_, _⟩, rest, ⟨rfl, fit, rfl⟩, ⟨later, rfl⟩, rfl⟩
      exact ⟨⟨fit, later⟩, rfl⟩
    · rintro ⟨⟨fit, later⟩, rfl⟩
      exact ⟨_, _, ⟨rfl, fit, rfl⟩, ⟨later, rfl⟩, rfl⟩

/-- A content tree encodes to the serialization of its elements whenever offsets fit. -/
theorem Tree.encodeElements_eq_ok {element : Schema} {elements : List Value} {depth : Nat}
    {content : Tree} {length : UInt64} {bytes : Bytes} (shallow : depth < 64)
    (fits : element.elementChunks elements.length ≤ 2 ^ depth)
    (sized : elements.length = length.toNat)
    (encoded : ∀ (value : Value) (tree : Tree) (bytes : Bytes), element.Represents value tree →
      (element.encode tree = .ok bytes ↔
        element.OffsetsFit value ∧ element.serialize value = bytes))
    (holds : HoldsElements element element.Represents elements depth content) :
    content.encodeElements element element.encode depth length = .ok bytes ↔
      ((∀ member ∈ elements, element.OffsetsFit member) ∧
        Piece.OffsetsFit (element.elementPieces elements)) ∧
        Piece.assemble (element.elementPieces elements) = bytes := by
  cases own : element.scalar? with
  | some type =>
    obtain rfl := Schema.eq_scalar own
    obtain ⟨spellings, spelled, rfl, rfl⟩ := (holdsElements_packed own).mp holds
    simp only [Schema.elementChunks, own, List.length_map] at fits sized
    have width := Scalar.length_flatten spelled
    -- Packed scalars are serialized as the bytes of their leaves.
    have packed := packedContent_ofBytes shallow (width ▸ fits)
    rw [width, sized] at packed
    have fit : Piece.OffsetsFit
        ((Schema.scalar type).elementPieces (spellings.map type.decode)) := by
      rw [Schema.elementPieces_packed spelled]
      exact Piece.offsetsFit_inline (by simp)
    rw [Schema.assemble_packed spelled]
    simp [encodeElements, own, packed, fit, Schema.OffsetsFit]
  | none =>
    obtain ⟨nodes, each, rfl⟩ := (holdsElements_subtrees own).mp holds
    simp only [Schema.elementChunks, own] at fits
    have count : length = UInt64.ofNat nodes.length := by
      rw [← each.length_eq, sized, UInt64.ofNat_toNat]
    -- Other elements are serialized node by node and then joined.
    have members := nodesAtDepth_ofNodes shallow (each.length_eq ▸ fits)
    simp only [encodeElements, own, count, members, ok_bind]
    apply joinParts_of_yields (Part.yields_elements each encoded)
    rw [Schema.fixedEnd_elementPieces holds.admitted, each.length_eq]

mutual

/-- A canonical tree encodes to the serialization of its value, exactly when all offsets fit. -/
theorem Schema.encode_eq_ok : (schema : Schema) → schema.Accepted → (value : Value) →
    (tree : Tree) → (bytes : Bytes) → schema.Represents value tree →
      (schema.encode tree = .ok bytes ↔
        schema.OffsetsFit value ∧ schema.serialize value = bytes)
  | .scalar type, _, value, tree, bytes, represents => by
    obtain ⟨spelling, spelled, rfl, rfl⟩ := represents
    -- A scalar is cut out of its chunk without the padding.
    have cut := @Chunk.slice_padded spelling (spelled.1 ▸ type.byteLength_le)
    rw [spelled.1] at cut
    simp [Schema.encode, Tree.leafOfBytes, Tree.chunk?, cut, Schema.OffsetsFit, Schema.serialize,
      Scalar.spelling_decode spelled]
  | .vector element length, accepted, value, tree, bytes, represents => by
    obtain ⟨elements, rfl, sized, holds⟩ := represents
    have encoded := fun value tree bytes =>
      Schema.encode_eq_ok element accepted.1 value tree bytes
    exact Tree.encodeElements_eq_ok accepted.depth_lt (sized ▸ Schema.vector_fits element length)
      sized encoded holds
  | .list element maxLength, accepted, value, tree, bytes, represents => by
    obtain ⟨elements, content, rfl, bounded, holds, rfl⟩ := represents
    have encoded := fun value tree bytes =>
      Schema.encode_eq_ok element accepted.1 value tree bytes
    have count := toNat_ofNat_of_le_word bounded
    simp only [Schema.encode, Tree.listParts_withLength, ok_bind,
      if_neg (not_lt_ofNat_of_le_word bounded)]
    exact Tree.encodeElements_eq_ok accepted.depth_lt (Schema.list_fits element bounded)
      count.symm encoded holds
  | .bitvector length, accepted, value, tree, bytes, represents => by
    obtain ⟨bits, rfl, sized, rfl⟩ := represents
    have fits := Schema.bitvector_fits length
    have packed := @Tree.packedContent_ofBytes _ (packBits bits) accepted.depth_lt
      (by rw [length_packBits]; omega)
    rw [length_packBits, sized] at packed
    simp [Schema.encode, packed, Schema.OffsetsFit, Schema.serialize]
  | .bitlist maxLength, accepted, value, tree, bytes, represents => by
    obtain ⟨bits, rfl, bounded, rfl⟩ := represents
    have fits := Schema.bitlist_fits bounded
    have count := toNat_ofNat_of_le_word bounded
    have packed := @Tree.packedContent_ofBytes _ (packBits bits) accepted.depth_lt
      (by rw [length_packBits]; omega)
    rw [length_packBits] at packed
    simp only [Schema.encode, Tree.listParts_withLength, ok_bind,
      if_neg (not_lt_ofNat_of_le_word bounded), count, packed, pure_eq_ok, markEnd_packBits]
    simp [Schema.OffsetsFit, Schema.serialize]
  | .container fields, accepted, value, tree, bytes, represents => by
    obtain ⟨members, nodes, rfl, each, rfl⟩ := represents
    have sized := each.length_eq.2
    -- One node is found for each field of the container.
    have found := Tree.nodesAtDepth_ofNodes accepted.depth_lt (sized ▸ Schema.container_fits fields)
    rw [sized] at found
    have yields := Schema.yields_partsOf fields accepted.1 members nodes each
    simp only [Schema.encode, found, ok_bind, Schema.OffsetsFit, Schema.serialize]
    exact joinParts_of_yields yields (Schema.fixedEnd_pieces each)
  | .union variants, accepted, value, tree, bytes, represents => by
    obtain ⟨selector, payload, variant, rfl, chosen, rfl⟩ := represents
    have encoded := fun bytes =>
      Schema.encodeVariant_eq_ok variants accepted.1 _ payload variant bytes chosen
    simp only [Schema.encode, Tree.unionParts_withSelector variant chosen.lt_length, ok_bind,
      bind_eq_ok, encoded, pure_eq_ok, Except.ok.injEq, Schema.OffsetsFit,
      Schema.serialize]
    constructor
    · rintro ⟨_, ⟨fit, rfl⟩, same⟩
      exact ⟨fit, same⟩
    · rintro ⟨fit, same⟩
      exact ⟨_, ⟨fit, rfl⟩, same⟩

/-- The parts of a container yield the pieces of its members, exactly when their offsets fit. -/
theorem Schema.yields_partsOf : (fields : List Field) → Schema.AcceptedFields fields →
    (members : List Value) → (nodes : List Tree) →
      Schema.RepresentsFields fields members nodes → (pieces : List Piece) →
        (List.Forall₂ Part.Yields (Schema.partsOf fields nodes) pieces ↔
          Schema.FieldsFit fields members ∧ Schema.pieces fields members = pieces)
  | [], _, [], [], _, pieces => by
    simp [Schema.partsOf, Schema.FieldsFit, Schema.pieces, eq_comm]
  | ⟨_, schema⟩ :: fields, accepted, member :: members, node :: nodes, represents, pieces => by
    -- The first part yields the serialization of its member, the others those of the rest.
    have first := fun bytes =>
      Schema.encode_eq_ok schema accepted.1 member node bytes represents.1
    have rest := Schema.yields_partsOf fields accepted.2 members nodes represents.2
    simp only [Schema.partsOf, List.forall₂_cons_left_iff, rest, Part.Yields, first,
      Schema.FieldsFit, Schema.pieces]
    constructor
    · rintro ⟨⟨_, _⟩, others, ⟨rfl, fit, rfl⟩, ⟨later, rfl⟩, rfl⟩
      exact ⟨⟨fit, later⟩, rfl⟩
    · rintro ⟨⟨fit, later⟩, rfl⟩
      exact ⟨_, _, ⟨rfl, fit, rfl⟩, ⟨later, rfl⟩, rfl⟩

/-- The variant of a union encodes to the serialization of its payload, when its offsets fit. -/
theorem Schema.encodeVariant_eq_ok : (variants : List (Option Schema)) →
    Schema.AcceptedVariants variants → (selector : Nat) → (payload : Option Value) →
      (tree : Tree) → (bytes : Bytes) → Schema.RepresentsVariant variants selector payload tree →
        (Schema.encodeVariant variants selector tree = .ok bytes ↔
          Schema.VariantFits variants selector payload ∧
            Schema.serializeVariant variants selector payload = bytes)
  | some schema :: _, accepted, 0, some value, tree, bytes, represents =>
    Schema.encode_eq_ok schema accepted.1 value tree bytes represents
  | none :: _, _, 0, none, tree, bytes, _ => by
    -- The variant with no payload has no bytes, and no offsets to check.
    simp [Schema.encodeVariant, Schema.VariantFits, Schema.serializeVariant]
  | some _ :: rest, accepted, selector + 1, payload, tree, bytes, represents =>
    Schema.encodeVariant_eq_ok rest accepted.2 selector payload tree bytes represents
  | none :: rest, accepted, selector + 1, payload, tree, bytes, represents =>
    Schema.encodeVariant_eq_ok rest accepted selector payload tree bytes represents

end

end Ssz
