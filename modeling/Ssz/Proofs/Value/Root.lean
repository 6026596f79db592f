import Ssz.Proofs.Merkleize
import Ssz.Proofs.Value.Tree

/-! Roots of values: computing the root alone agrees with building the tree and taking its root. -/

namespace Ssz

/-- The second results of steps that are told by their first ones, collected for all members. -/
theorem mapM_eq_map_mapM {ε α β γ : Type} {first : α → Except ε β} {second : α → Except ε γ}
    {convert : β → γ} (same : ∀ member, second member = convert <$> first member)
    (members : List α) : members.mapM second = List.map convert <$> members.mapM first := by
  induction members with
  | nil => rfl
  | cons member rest ih =>
    -- A failure ends both computations at the same member.
    rw [List.mapM_cons, List.mapM_cons, same, ih]
    cases first member with
    | error fault => rfl
    | ok result => cases rest.mapM first <;> rfl

/-- A content tree that fits has the root that is computed from its elements alone. -/
theorem Tree.sequenceRoot_eq {element : Schema} {treeOf : Value → Except ViewError Tree}
    {rootOf : Value → Except ViewError Chunk} (config : HashingConfig) {elements : List Value}
    {depth : Nat} (shallow : depth < 64) (fits : element.elementChunks elements.length ≤ 2 ^ depth)
    (each : ∀ value, rootOf value = Tree.root <$> treeOf value) :
    sequenceRoot config element rootOf elements depth =
      Tree.root <$> ofSequence element treeOf elements depth := by
  cases own : element.scalar? with
  | some type =>
    simp only [sequenceRoot, ofSequence, own, map_bind]
    cases packed : type.encodeAll elements with
    | error fault => rfl
    | ok bytes =>
      -- The packed bytes are as many as the depth was chosen for.
      obtain ⟨pieces, written, rfl⟩ := Scalar.encodeAll_eq_ok.mp packed
      have width := Scalar.length_flatten (Scalar.pieces_of_encode written).1
      simp only [Schema.elementChunks, own, written.length_eq, ← width] at fits
      rw [ok_bind, ok_bind, merkleRoot_packBytes config shallow fits, ofPacked_eq_ok shallow fits]
      rfl
  | none =>
    simp only [sequenceRoot, ofSequence, own, map_bind]
    rw [mapM_eq_map_mapM each, bind_map_left]
    cases members : elements.mapM treeOf with
    | error fault => rfl
    | ok nodes =>
      -- There is one node for each element.
      have sized := (mapM_eq_ok.mp members).length_eq
      simp only [Schema.elementChunks, own, sized] at fits
      rw [ok_bind, ok_bind, merkleRoot_roots config shallow fits, fill_eq_ok shallow fits]
      rfl

/-- The root over packed bits that fit is the root of the tree of those bits. -/
theorem Tree.merkleRoot_packBits (config : HashingConfig) {bits : List Bool} {depth : Nat}
    (shallow : depth < 64) (fits : (bits.length + 255) / 256 ≤ 2 ^ depth) :
    merkleRoot config (packBytes (packBits bits)) depth =
      Tree.root <$> ofPacked (packBits bits) depth := by
  have room : ((packBits bits).length + 31) / 32 ≤ 2 ^ depth := by
    rw [length_packBits]
    omega
  rw [merkleRoot_packBytes config shallow room, ofPacked_eq_ok shallow room]
  rfl

/-- There are as many trees of members as fields, if there are as many members. -/
theorem Schema.length_treesOf {fields : List Field} {members : List Value} {nodes : List Tree}
    (counted : members.length = fields.length)
    (built : Schema.treesOf fields members = .ok nodes) : nodes.length = members.length := by
  induction fields generalizing members nodes with
  | nil =>
    obtain rfl := Except.ok.inj built
    exact counted.symm
  | cons field fields ih =>
    obtain ⟨name, schema⟩ := field
    cases members with
    | nil => cases counted
    | cons member members =>
      -- Each step builds the tree of one member.
      simp only [Schema.treesOf, bind_eq_ok, pure_eq_ok, Except.ok.injEq] at built
      obtain ⟨node, _, others, rest, rfl⟩ := built
      rw [List.length_cons, List.length_cons, ih (by simpa using counted) rest]

mutual

/-- The root of a value is the root of its tree, and both fail for the same reason. -/
theorem Schema.rootOf_eq (config : HashingConfig) : (schema : Schema) → schema.Accepted →
    (value : Value) → schema.rootOf config value = Tree.root <$> schema.treeOf value
  | .scalar type, _, value => by
    simp only [Schema.rootOf, Schema.treeOf, map_bind]
    rfl
  | .vector element length, accepted, value => by
    cases value with
    | sequence elements =>
      simp only [Schema.rootOf, Schema.treeOf]
      split
      · rfl
      · -- The length that was checked is the one that the depth was chosen for.
        rename_i sized
        have fits := Schema.vector_fits element length
        rw [← not_not.mp sized] at fits
        exact Tree.sequenceRoot_eq config accepted.depth_lt fits
          (Schema.rootOf_eq config element accepted.1)
    | _ => rfl
  | .list element maxLength, accepted, value => by
    cases value with
    | sequence elements =>
      simp only [Schema.rootOf, Schema.treeOf]
      split
      · rfl
      · rename_i bounded
        have fits := Schema.list_fits element (Nat.le_of_not_lt bounded)
        -- The length is mixed in last on both sides.
        rw [Tree.sequenceRoot_eq config accepted.depth_lt fits
          (Schema.rootOf_eq config element accepted.1), bind_map_left, map_bind]
        rfl
    | _ => rfl
  | .bitvector length, accepted, value => by
    cases value with
    | bits bits =>
      simp only [Schema.rootOf, Schema.treeOf]
      split
      · rfl
      · rename_i sized
        have fits := Schema.bitvector_fits length
        rw [← not_not.mp sized] at fits
        exact Tree.merkleRoot_packBits config accepted.depth_lt fits
    | _ => rfl
  | .bitlist maxLength, accepted, value => by
    cases value with
    | bits bits =>
      simp only [Schema.rootOf, Schema.treeOf]
      split
      · rfl
      · rename_i bounded
        have fits := Schema.bitlist_fits (Nat.le_of_not_lt bounded)
        rw [Tree.merkleRoot_packBits config accepted.depth_lt fits, bind_map_left, map_bind]
        rfl
    | _ => rfl
  | .container fields, accepted, value => by
    cases value with
    | container members =>
      simp only [Schema.rootOf, Schema.treeOf]
      split
      · rfl
      · rename_i counted
        rw [Schema.rootsOf_eq config fields accepted.1 members, bind_map_left, map_bind]
        cases built : Schema.treesOf fields members with
        | error fault => rfl
        | ok nodes =>
          -- One tree was built for each field, so they fit.
          have fits := Schema.container_fits fields
          rw [← not_not.mp counted, ← Schema.length_treesOf (not_not.mp counted) built] at fits
          rw [ok_bind, ok_bind, merkleRoot_roots config accepted.depth_lt fits,
            Tree.fill_eq_ok accepted.depth_lt fits]
          rfl
    | _ => rfl
  | .union variants, accepted, value => by
    cases value with
    | union selector payload =>
      simp only [Schema.rootOf, Schema.treeOf]
      split
      · rfl
      · rw [Schema.variantRoot_eq config variants accepted.1, bind_map_left, map_bind]
        rfl
    | _ => rfl

/-- The roots of the members of a container are the roots of their trees. -/
theorem Schema.rootsOf_eq (config : HashingConfig) : (fields : List Field) →
    Schema.AcceptedFields fields → (members : List Value) →
      Schema.rootsOf config fields members = List.map Tree.root <$> Schema.treesOf fields members
  | [], _, _ => rfl
  | ⟨_, _⟩ :: _, _, [] => rfl
  | ⟨_, schema⟩ :: fields, accepted, member :: members => by
    -- The first member is computed before the others on both sides.
    have first := Schema.rootOf_eq config schema accepted.1 member
    have rest := Schema.rootsOf_eq config fields accepted.2 members
    simp only [Schema.rootsOf, Schema.treesOf, first, rest]
    cases schema.treeOf member with
    | error fault => rfl
    | ok tree => cases Schema.treesOf fields members <;> rfl

/-- The root below the selector of a union is the root of the tree of its payload. -/
theorem Schema.variantRoot_eq (config : HashingConfig) : (variants : List (Option Schema)) →
    Schema.AcceptedVariants variants → (selector : Nat) → (payload : Option Value) →
      Schema.variantRoot config variants selector payload =
        Tree.root <$> Schema.variantTree variants selector payload
  | some schema :: _, accepted, 0, some value => Schema.rootOf_eq config schema accepted.1 value
  | none :: _, _, 0, none => by
    -- The variant with no payload has the zero chunk as its root.
    rw [Schema.variantRoot, Schema.variantTree, Tree.zero_zero]
    rfl
  | some _ :: rest, accepted, selector + 1, payload =>
    Schema.variantRoot_eq config rest accepted.2 selector payload
  | none :: rest, accepted, selector + 1, payload =>
    Schema.variantRoot_eq config rest accepted selector payload
  | [], _, _, _ => by simp [Schema.variantRoot, Schema.variantTree]
  | some _ :: _, _, 0, none => rfl
  | none :: _, _, 0, some _ => rfl

end

end Ssz
