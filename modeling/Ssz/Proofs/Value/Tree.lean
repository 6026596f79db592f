import Ssz.Proofs.Value.Represents

/-! Building the tree of a value and reading it back agree on one tree a value. -/

namespace Ssz

namespace Schema

/-- Fields, members and nodes correspond one to one. -/
theorem RepresentsFields.length_eq {fields : List Field} {members : List Value} {nodes : List Tree}
    (represents : RepresentsFields fields members nodes) :
    members.length = fields.length ∧ nodes.length = fields.length := by
  -- The relation goes through the three lists together, so none ends before another.
  induction fields generalizing members nodes with
  | nil =>
    cases members <;> cases nodes <;> simp_all [RepresentsFields]
  | cons field fields ih =>
    obtain ⟨name, schema⟩ := field
    cases members with
    | nil => cases represents
    | cons member members =>
      cases nodes with
      | nil => cases represents
      | cons node nodes =>
        obtain ⟨counted, sized⟩ := ih represents.2
        simp [counted, sized]

/-- The selector of a represented union names one of the variants. -/
theorem RepresentsVariant.lt_length {variants : List (Option Schema)} {selector : Nat}
    {payload : Option Value} {tree : Tree}
    (represents : RepresentsVariant variants selector payload tree) :
    selector < variants.length := by
  induction variants generalizing selector with
  | nil => simp [RepresentsVariant] at represents
  | cons variant rest ih =>
    cases selector with
    | zero => simp
    | succ selector =>
      -- The selector counts the variants that are passed on the way to its own.
      have deeper : selector < rest.length := ih (by simpa [RepresentsVariant] using represents)
      simp only [List.length_cons]
      omega

/--
A payload is represented under the variant that the selector names: by the tree of its value, or by
a zero leaf where that variant is the empty one.
-/
theorem representsVariant_iff {variants : List (Option Schema)} {selector : Nat}
    {payload : Option Value} {tree : Tree} :
    RepresentsVariant variants selector payload tree ↔
      (∃ schema value, variants[selector]? = some (some schema) ∧ payload = some value ∧
        schema.Represents value tree) ∨
      (variants[selector]? = some none ∧ payload = none ∧ tree = .leaf Chunk.zero) := by
  -- The search and the index move along the variants together.
  induction variants generalizing selector with
  | nil => simp [RepresentsVariant]
  | cons variant rest ih =>
    cases selector with
    | zero => cases variant <;> cases payload <;> simp [RepresentsVariant]
    | succ selector => simpa [RepresentsVariant] using ih

end Schema

/-- The length beside the content of a list is read back. -/
theorem Tree.listParts_withLength (content : Tree) (length : UInt64) :
    (content.withLength length).listParts = .ok (content, length) := by
  simp [withLength, listParts, chunk?]

/-- The selector beside the variant of a union is read back, if it is in range. -/
theorem Tree.unionParts_withSelector {variants : List (Option Schema)} (variant : Tree)
    {selector : UInt32} (within : selector.toNat < variants.length) :
    (variant.withSelector selector).unionParts variants = .ok (variant, selector) := by
  simp [withSelector, unionParts, chunk?, within]

mutual

/-- The tree that represents a value is the one built for it. -/
theorem Schema.treeOf_of_represents : (schema : Schema) → schema.Accepted →
    (value : Value) → (tree : Tree) → schema.Represents value tree →
      schema.treeOf value = .ok tree
  | .scalar type, _, value, tree, represents => by
    obtain ⟨bytes, spelled, rfl, rfl⟩ := represents
    simp [Schema.treeOf, Scalar.encode_decode spelled]
  | .vector element length, accepted, value, tree, represents => by
    obtain ⟨elements, rfl, sized, holds⟩ := represents
    -- Each element is built into its tree, by the theorem at the schema of the elements.
    have built := Schema.treeOf_of_represents element accepted.1
    simp only [Schema.treeOf, sized, ne_eq, not_true_eq_false, if_false]
    exact Tree.ofSequence_of_holds accepted.depth_lt (sized ▸ Schema.vector_fits element length)
      built holds
  | .list element maxLength, accepted, value, tree, represents => by
    obtain ⟨elements, content, rfl, bounded, holds, rfl⟩ := represents
    have built := Schema.treeOf_of_represents element accepted.1
    simp only [Schema.treeOf, Nat.not_lt.mpr bounded, if_false, Tree.ofSequence_of_holds
      accepted.depth_lt (Schema.list_fits element bounded) built holds, ok_bind, pure_eq_ok]
  | .bitvector length, accepted, value, tree, represents => by
    obtain ⟨bits, rfl, sized, rfl⟩ := represents
    simp only [Schema.treeOf, sized, ne_eq, not_true_eq_false, if_false]
    exact Tree.ofPacked_packBits accepted.depth_lt (sized ▸ Schema.bitvector_fits length)
  | .bitlist maxLength, accepted, value, tree, represents => by
    obtain ⟨bits, rfl, bounded, rfl⟩ := represents
    simp only [Schema.treeOf, Nat.not_lt.mpr bounded, if_false, Tree.ofPacked_packBits
      accepted.depth_lt (Schema.bitlist_fits bounded), ok_bind, pure_eq_ok]
  | .container fields, accepted, value, tree, represents => by
    obtain ⟨members, nodes, rfl, each, rfl⟩ := represents
    -- As many members as fields are given, which is what the constructor checks.
    obtain ⟨counted, sized⟩ := each.length_eq
    have built := Schema.treesOf_of_represents fields accepted.1 members nodes each
    simp only [Schema.treeOf, counted, ne_eq, not_true_eq_false, if_false, built, ok_bind]
    exact Tree.fill_eq_ok accepted.depth_lt (sized ▸ Schema.container_fits fields)
  | .union variants, accepted, value, tree, represents => by
    obtain ⟨selector, payload, variant, rfl, chosen, rfl⟩ := represents
    have built := Schema.variantTree_of_represents variants accepted.1 _ payload variant chosen
    simp only [Schema.treeOf, Nat.not_le.mpr chosen.lt_length, if_false, built, ok_bind, pure_eq_ok]

/-- The trees that represent the members of a container are those built for them. -/
theorem Schema.treesOf_of_represents : (fields : List Field) → Schema.AcceptedFields fields →
    (members : List Value) → (nodes : List Tree) →
      Schema.RepresentsFields fields members nodes → Schema.treesOf fields members = .ok nodes
  | [], _, [], [], _ => rfl
  | ⟨_, schema⟩ :: fields, accepted, member :: members, node :: nodes, represents => by
    -- Each member builds its own node, so the nodes are built one after another.
    have first := Schema.treeOf_of_represents schema accepted.1 member node represents.1
    have rest := Schema.treesOf_of_represents fields accepted.2 members nodes represents.2
    simp [Schema.treesOf, first, rest]

/-- The tree that represents the variant of a union is the one built for it. -/
theorem Schema.variantTree_of_represents : (variants : List (Option Schema)) →
    Schema.AcceptedVariants variants → (selector : Nat) → (payload : Option Value) →
      (tree : Tree) → Schema.RepresentsVariant variants selector payload tree →
        Schema.variantTree variants selector payload = .ok tree
  | some schema :: _, accepted, 0, some value, tree, represents =>
    Schema.treeOf_of_represents schema accepted.1 value tree represents
  | none :: _, _, 0, none, tree, represents => by
    -- The variant with no payload has the zero chunk as its tree.
    obtain rfl : tree = .leaf Chunk.zero := represents
    simp [Schema.variantTree]
  | some _ :: rest, accepted, selector + 1, payload, tree, represents =>
    Schema.variantTree_of_represents rest accepted.2 selector payload tree represents
  | none :: rest, accepted, selector + 1, payload, tree, represents =>
    Schema.variantTree_of_represents rest accepted selector payload tree represents

end

mutual

/-- The value that a tree represents is the one read from it. -/
theorem Schema.valueOf_of_represents : (schema : Schema) → schema.Accepted →
    (value : Value) → (tree : Tree) → schema.Represents value tree →
      schema.valueOf tree = .ok value
  | .scalar type, _, value, tree, represents => by
    obtain ⟨bytes, spelled, rfl, rfl⟩ := represents
    -- The chunk holds the spelling, and the padding behind it is not read.
    have narrow : bytes.length ≤ 32 := spelled.1 ▸ type.byteLength_le
    have cut := Chunk.slice_padded narrow
    rw [spelled.1] at cut
    simp [Schema.valueOf, Tree.leafOfBytes, Tree.chunk?, cut]
  | .vector element length, accepted, value, tree, represents => by
    obtain ⟨elements, rfl, sized, holds⟩ := represents
    have read := Schema.valueOf_of_represents element accepted.1
    simp only [Schema.valueOf, Tree.elements_of_holds accepted.depth_lt
      (sized ▸ Schema.vector_fits element length) sized read holds, ok_bind, pure_eq_ok]
  | .list element maxLength, accepted, value, tree, represents => by
    obtain ⟨elements, content, rfl, bounded, holds, rfl⟩ := represents
    have read := Schema.valueOf_of_represents element accepted.1
    -- The length that is stored is the number of elements, which fits in a word.
    have sized := (toNat_ofNat_of_le_word bounded).symm
    simp only [Schema.valueOf, Tree.listParts_withLength, ok_bind, Tree.elements_of_holds
      accepted.depth_lt (Schema.list_fits element bounded) sized read holds, pure_eq_ok]
  | .bitvector length, accepted, value, tree, represents => by
    obtain ⟨bits, rfl, sized, rfl⟩ := represents
    have read := Tree.packedBits_ofBytes accepted.depth_lt (sized ▸ Schema.bitvector_fits length)
    rw [sized] at read
    simp only [Schema.valueOf, read, ok_bind, pure_eq_ok]
  | .bitlist maxLength, accepted, value, tree, represents => by
    obtain ⟨bits, rfl, bounded, rfl⟩ := represents
    simp only [Schema.valueOf, Tree.listParts_withLength, ok_bind, toNat_ofNat_of_le_word bounded,
      Tree.packedBits_ofBytes accepted.depth_lt (Schema.bitlist_fits bounded), pure_eq_ok]
  | .container fields, accepted, value, tree, represents => by
    obtain ⟨members, nodes, rfl, each, rfl⟩ := represents
    obtain ⟨_, sized⟩ := each.length_eq
    have read := Schema.valuesOf_of_represents fields accepted.1 members nodes each
    -- The container has one node for each field.
    have found := Tree.nodesAtDepth_ofNodes accepted.depth_lt (sized ▸ Schema.container_fits fields)
    rw [sized] at found
    simp only [Schema.valueOf, found, ok_bind, read, pure_eq_ok]
  | .union variants, accepted, value, tree, represents => by
    obtain ⟨selector, payload, variant, rfl, chosen, rfl⟩ := represents
    have read := Schema.variantValue_of_represents variants accepted.1 _ payload variant chosen
    simp only [Schema.valueOf, Tree.unionParts_withSelector variant chosen.lt_length, ok_bind, read,
      pure_eq_ok]

/-- The values that the nodes of a container represent are those read from them. -/
theorem Schema.valuesOf_of_represents : (fields : List Field) → Schema.AcceptedFields fields →
    (members : List Value) → (nodes : List Tree) →
      Schema.RepresentsFields fields members nodes → Schema.valuesOf fields nodes = .ok members
  | [], _, [], [], _ => rfl
  | ⟨_, schema⟩ :: fields, accepted, member :: members, node :: nodes, represents => by
    -- Each node is read back as its own member.
    have first := Schema.valueOf_of_represents schema accepted.1 member node represents.1
    have rest := Schema.valuesOf_of_represents fields accepted.2 members nodes represents.2
    simp [Schema.valuesOf, first, rest]

/-- The payload that the variant of a union represents is the one read from it. -/
theorem Schema.variantValue_of_represents : (variants : List (Option Schema)) →
    Schema.AcceptedVariants variants → (selector : Nat) → (payload : Option Value) →
      (tree : Tree) → Schema.RepresentsVariant variants selector payload tree →
        Schema.variantValue variants selector tree = .ok payload
  | some schema :: _, accepted, 0, some value, tree, represents => by
    -- The payload is read under the schema of its variant.
    have read := Schema.valueOf_of_represents schema accepted.1 value tree represents
    simp [Schema.variantValue, read]
  | none :: _, _, 0, none, _, _ => rfl
  | some _ :: rest, accepted, selector + 1, payload, tree, represents =>
    Schema.variantValue_of_represents rest accepted.2 selector payload tree represents
  | none :: rest, accepted, selector + 1, payload, tree, represents =>
    Schema.variantValue_of_represents rest accepted selector payload tree represents

end

end Ssz
