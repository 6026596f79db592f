import Ssz.Proofs.Value.Tree

/-! Every tree that is built for a value represents that value in the form it is read back. -/

namespace Ssz

mutual

/-- A value with each 256-bit integer in it given as its thirty-two bytes. -/
def Schema.normal : Schema → Value → Value
  -- Only scalars have two forms of one value, so all others keep their form.
  | .scalar type, value => type.normal value
  | .vector element _, .sequence elements => .sequence (elements.map element.normal)
  | .list element _, .sequence elements => .sequence (elements.map element.normal)
  | .container fields, .container members => .container (Schema.normalFields fields members)
  | .union variants, .union selector payload =>
    .union selector (Schema.normalVariant variants selector.toNat payload)
  | _, value => value

/-- The normal forms of the members of a container. -/
def Schema.normalFields : List Field → List Value → List Value
  | ⟨_, schema⟩ :: fields, member :: members =>
    schema.normal member :: Schema.normalFields fields members
  | _, _ => []

/-- The normal form of the payload of a union. -/
def Schema.normalVariant : List (Option Schema) → (selector : Nat) → Option Value → Option Value
  | some schema :: _, 0, some value => some (schema.normal value)
  | _ :: rest, selector + 1, payload => Schema.normalVariant rest selector payload
  | _, _, payload => payload

end

/-- A content tree that was built for elements holds their normal forms. -/
theorem Tree.holds_of_ofSequence {element : Schema} {represents : Value → Tree → Prop}
    {treeOf : Value → Except ViewError Tree} {normal : Value → Value} {elements : List Value}
    {depth : Nat} {content : Tree} (shallow : depth < 64)
    (fits : element.elementChunks elements.length ≤ 2 ^ depth)
    (packed : ∀ type, element.scalar? = some type → normal = type.normal)
    (each : ∀ value tree, treeOf value = .ok tree → represents (normal value) tree)
    (built : ofSequence element treeOf elements depth = .ok content) :
    HoldsElements element represents (elements.map normal) depth content := by
  cases own : element.scalar? with
  | some type =>
    simp only [ofSequence, own, bind_eq_ok, Scalar.encodeAll_eq_ok] at built
    -- The bytes that were packed are spellings, and these are what the leaves hold.
    obtain ⟨_, ⟨pieces, written, rfl⟩, filled⟩ := built
    obtain ⟨spelled, same⟩ := Scalar.pieces_of_encode written
    simp only [Schema.elementChunks, own, written.length_eq] at fits
    rw [ofPacked_eq_ok shallow (Scalar.length_flatten spelled ▸ fits)] at filled
    rw [holdsElements_packed own, packed type own]
    exact ⟨pieces, spelled, same, (Except.ok.inj filled).symm⟩
  | none =>
    simp only [ofSequence, own, bind_eq_ok, mapM_eq_ok] at built
    -- Each node was built for its own element, so each represents the normal form of it.
    obtain ⟨nodes, members, filled⟩ := built
    simp only [Schema.elementChunks, own, members.length_eq] at fits
    rw [fill_eq_ok shallow fits] at filled
    refine (holdsElements_subtrees own).mpr ⟨nodes, ?_, (Except.ok.inj filled).symm⟩
    rw [List.forall₂_map_left_iff]
    exact members.imp each

/-- Packed scalars take the normal form of their type. -/
theorem Schema.normal_of_scalar {schema : Schema} (type : Scalar)
    (packed : schema.scalar? = some type) : schema.normal = type.normal := by
  obtain rfl := eq_scalar packed
  funext value
  rfl

mutual

/-- A tree built for a value represents the value's normal form. -/
theorem Schema.represents_of_treeOf : (schema : Schema) → schema.Accepted →
    (value : Value) → (tree : Tree) → schema.treeOf value = .ok tree →
      schema.Represents (schema.normal value) tree
  | .scalar type, _, value, tree, built => by
    simp only [Schema.treeOf, bind_eq_ok, pure_eq_ok, Except.ok.injEq] at built
    obtain ⟨bytes, written, rfl⟩ := built
    exact ⟨bytes, Scalar.spelled_of_encode written, (Scalar.decode_of_encode written).symm, rfl⟩
  | .vector element length, accepted, value, tree, built => by
    cases value with
    | sequence elements =>
      unfold Schema.treeOf at built
      split at built
      · cases built
      -- The length was checked before any element was looked at.
      rename_i sized
      have sized : elements.length = length.toNat := by simpa using sized
      have each := Schema.represents_of_treeOf element accepted.1
      refine ⟨elements.map element.normal, rfl, by simpa using sized, ?_⟩
      exact Tree.holds_of_ofSequence accepted.depth_lt (sized ▸ Schema.vector_fits element length)
        element.normal_of_scalar each built
    | _ => simp [Schema.treeOf] at built
  | .list element maxLength, accepted, value, tree, built => by
    cases value with
    | sequence elements =>
      unfold Schema.treeOf at built
      split at built
      · cases built
      -- A list is checked against its maximum, and its length is stored as it was given.
      rename_i bounded
      have bounded := Nat.le_of_not_lt bounded
      simp only [bind_eq_ok, pure_eq_ok, Except.ok.injEq] at built
      obtain ⟨content, filled, rfl⟩ := built
      have each := Schema.represents_of_treeOf element accepted.1
      refine ⟨elements.map element.normal, content, rfl, by simpa using bounded, ?_, by simp⟩
      exact Tree.holds_of_ofSequence accepted.depth_lt (Schema.list_fits element bounded)
        element.normal_of_scalar each filled
    | _ => simp [Schema.treeOf] at built
  | .bitvector length, accepted, value, tree, built => by
    cases value with
    | bits bits =>
      unfold Schema.treeOf at built
      split at built
      · cases built
      rename_i sized
      have sized : bits.length = length.toNat := by simpa using sized
      rw [Tree.ofPacked_packBits accepted.depth_lt (sized ▸ Schema.bitvector_fits length)] at built
      exact ⟨bits, rfl, sized, (Except.ok.inj built).symm⟩
    | _ => simp [Schema.treeOf] at built
  | .bitlist maxLength, accepted, value, tree, built => by
    cases value with
    | bits bits =>
      unfold Schema.treeOf at built
      split at built
      · cases built
      rename_i bounded
      have bounded := Nat.le_of_not_lt bounded
      rw [Tree.ofPacked_packBits accepted.depth_lt (Schema.bitlist_fits bounded)] at built
      exact ⟨bits, rfl, bounded, (Except.ok.inj built).symm⟩
    | _ => simp [Schema.treeOf] at built
  | .container fields, accepted, value, tree, built => by
    cases value with
    | container members =>
      unfold Schema.treeOf at built
      split at built
      · cases built
      -- There is one member for each field, or the tree would not have been built.
      rename_i counted
      have counted : members.length = fields.length := by simpa using counted
      obtain ⟨nodes, filled, raised⟩ := bind_eq_ok.mp built
      have each := Schema.represents_of_treesOf fields accepted.1 members nodes counted filled
      have sized := each.length_eq.2
      rw [Tree.fill_eq_ok accepted.depth_lt (sized ▸ Schema.container_fits fields)] at raised
      exact ⟨_, nodes, rfl, each, (Except.ok.inj raised).symm⟩
    | _ => simp [Schema.treeOf] at built
  | .union variants, accepted, value, tree, built => by
    cases value with
    | union selector payload =>
      unfold Schema.treeOf at built
      split at built
      · cases built
      simp only [bind_eq_ok, pure_eq_ok, Except.ok.injEq] at built
      obtain ⟨variant, chosen, rfl⟩ := built
      have each := Schema.represents_of_variantTree variants accepted.1 _ payload variant chosen
      exact ⟨selector, _, variant, rfl, each, rfl⟩
    | _ => simp [Schema.treeOf] at built

/-- The trees built for the members of a container represent their normal forms. -/
theorem Schema.represents_of_treesOf : (fields : List Field) → Schema.AcceptedFields fields →
    (members : List Value) → (nodes : List Tree) → members.length = fields.length →
      Schema.treesOf fields members = .ok nodes →
        Schema.RepresentsFields fields (Schema.normalFields fields members) nodes
  | [], _, [], nodes, _, built => by
    cases built
    trivial
  | ⟨_, schema⟩ :: fields, accepted, member :: members, nodes, counted, built => by
    -- The trees of the members are built from left to right.
    simp only [Schema.treesOf, bind_eq_ok, pure_eq_ok, Except.ok.injEq] at built
    obtain ⟨node, first, others, rest, rfl⟩ := built
    exact ⟨Schema.represents_of_treeOf schema accepted.1 member node first,
      Schema.represents_of_treesOf fields accepted.2 members others (by simpa using counted) rest⟩

/-- The tree built for the payload of a union represents its normal form. -/
theorem Schema.represents_of_variantTree : (variants : List (Option Schema)) →
    Schema.AcceptedVariants variants → (selector : Nat) → (payload : Option Value) →
      (tree : Tree) → Schema.variantTree variants selector payload = .ok tree →
        Schema.RepresentsVariant variants selector
          (Schema.normalVariant variants selector payload) tree
  | some schema :: _, accepted, 0, some value, tree, built =>
    Schema.represents_of_treeOf schema accepted.1 value tree built
  | none :: _, _, 0, none, tree, built => by
    -- The variant with no payload has the zero chunk as its tree.
    obtain rfl : Tree.zero 0 = tree := Except.ok.inj built
    exact Tree.zero_zero
  | some _ :: rest, accepted, selector + 1, payload, tree, built =>
    Schema.represents_of_variantTree rest accepted.2 selector payload tree built
  | none :: rest, accepted, selector + 1, payload, tree, built =>
    Schema.represents_of_variantTree rest accepted selector payload tree built
  | [], _, _, _, _, built => by simp [Schema.variantTree] at built
  | some _ :: _, _, 0, none, _, built => by simp [Schema.variantTree] at built
  | none :: _, _, 0, some _, _, built => by simp [Schema.variantTree] at built

end

end Ssz
