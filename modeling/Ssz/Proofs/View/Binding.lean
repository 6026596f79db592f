import Ssz.Proofs.Tree.Binding
import Ssz.Proofs.View.RoundTrip

/-! Roots of views bind values and serializations, unless two hashes in the trees collide. -/

namespace Ssz

/-- Nodes of equally many elements bind one by one, if the roots of elements bind them. -/
theorem Tree.binds_nodes {represents : Value → Tree → Prop}
    (binds : ∀ (value other : Value) (tree otherTree : Tree), represents value tree →
      represents other otherTree → Binds tree otherTree)
    {elements others : List Value} {nodes otherNodes : List Tree}
    (each : List.Forall₂ represents elements nodes)
    (also : List.Forall₂ represents others otherNodes) (sized : elements.length = others.length) :
    List.Forall₂ Binds nodes otherNodes := by
  -- Equal lengths keep the two lists of nodes in step.
  induction each generalizing others otherNodes with
  | nil =>
    obtain rfl := List.length_eq_zero_iff.mp sized.symm
    cases also
    exact .nil
  | cons head _ ih =>
    cases also with
    | nil => cases sized
    | cons otherHead otherTail =>
      exact .cons (binds _ _ _ _ head otherHead) (ih otherTail (by simpa using sized))

/-- The root of a content tree binds it among those of equally many elements. -/
theorem Tree.binds_of_holds {element : Schema} {represents : Value → Tree → Prop}
    (binds : ∀ (value other : Value) (tree otherTree : Tree), represents value tree →
      represents other otherTree → Binds tree otherTree)
    {elements others : List Value} {depth : Nat} {content otherContent : Tree}
    (holds : HoldsElements element represents elements depth content)
    (also : HoldsElements element represents others depth otherContent)
    (sized : elements.length = others.length) : Binds content otherContent := by
  -- Packed elements are leaves of bytes, and other elements bind node by node.
  cases own : element.scalar? with
  | some type =>
    obtain ⟨_, _, _, rfl⟩ := (holdsElements_packed own).mp holds
    obtain ⟨_, _, _, rfl⟩ := (holdsElements_packed own).mp also
    exact binds_ofBytes _ _ _
  | none =>
    obtain ⟨nodes, each, rfl⟩ := (holdsElements_subtrees own).mp holds
    obtain ⟨otherNodes, otherEach, rfl⟩ := (holdsElements_subtrees own).mp also
    exact binds_ofNodes (binds_nodes binds each otherEach sized)

/-- Lists with equal roots have equal lengths and contents with equal roots, or collide. -/
theorem Tree.parts_of_withLength {content otherContent : Tree} {length otherLength : UInt64}
    (same : (content.withLength length).root = (otherContent.withLength otherLength).root) :
    (content.root = otherContent.root ∧ length = otherLength) ∨
      Collision (content.withLength length) (otherContent.withLength otherLength) := by
  rcases roots_of_branch same with ⟨contents, lengths⟩ | collision
  · -- The length is the right child, and its root is the chunk itself.
    have chunks : Chunk.ofLength length = Chunk.ofLength otherLength := lengths
    refine .inl ⟨contents, ?_⟩
    rw [← Chunk.length_ofLength length, chunks, Chunk.length_ofLength]
  · exact .inr collision

/-- Unions with equal roots have equal selectors and variants with equal roots, or collide. -/
theorem Tree.parts_of_withSelector {variant otherVariant : Tree} {selector otherSelector : UInt32}
    (same : (variant.withSelector selector).root =
      (otherVariant.withSelector otherSelector).root) :
    (variant.root = otherVariant.root ∧ selector = otherSelector) ∨
      Collision (variant.withSelector selector) (otherVariant.withSelector otherSelector) := by
  rcases roots_of_branch same with ⟨variants, selectors⟩ | collision
  · -- The selector is the right child, and its root is the chunk itself.
    have chunks : Chunk.ofSelector selector = Chunk.ofSelector otherSelector := selectors
    refine .inl ⟨variants, ?_⟩
    rw [← Chunk.selector_ofSelector selector, chunks, Chunk.selector_ofSelector]
  · exact .inr collision

/-- Lists bind, if lists of equal lengths have contents that bind. -/
theorem Tree.binds_withLength {content otherContent : Tree} {length otherLength : UInt64}
    (binds : length = otherLength → Binds content otherContent) :
    Binds (content.withLength length) (otherContent.withLength otherLength) := by
  intro same
  -- Contents of different shape are never compared, since the lengths are equal first.
  rcases parts_of_withLength same with ⟨contents, rfl⟩ | collision
  · rcases binds rfl contents with rfl | collision
    · exact .inl rfl
    · exact .inr (collision.left _ _)
  · exact .inr collision

/-- Unions bind, if unions with equal selectors have variants that bind. -/
theorem Tree.binds_withSelector {variant otherVariant : Tree} {selector otherSelector : UInt32}
    (binds : selector = otherSelector → Binds variant otherVariant) :
    Binds (variant.withSelector selector) (otherVariant.withSelector otherSelector) := by
  intro same
  -- Variants of different schemas are never compared, since the selectors are equal first.
  rcases parts_of_withSelector same with ⟨variants, rfl⟩ | collision
  · rcases binds rfl variants with rfl | collision
    · exact .inl rfl
    · exact .inr (collision.left _ _)
  · exact .inr collision

/-- Different lengths within a maximum are told apart by the words that store them. -/
theorem length_eq_of_word {count other : Nat} {max : UInt64} (bounded : count ≤ max.toNat)
    (also : other ≤ max.toNat) (same : UInt64.ofNat count = UInt64.ofNat other) :
    count = other := by
  rw [← toNat_ofNat_of_le_word bounded, same, toNat_ofNat_of_le_word also]

mutual

/-- The root of a canonical tree binds it among the canonical trees of its schema. -/
theorem Schema.binds : (schema : Schema) → (value other : Value) → (tree otherTree : Tree) →
    schema.Represents value tree → schema.Represents other otherTree → tree.Binds otherTree
  | .scalar type, value, other, tree, otherTree, represents, also => by
    obtain ⟨_, _, _, rfl⟩ := represents
    obtain ⟨_, _, _, rfl⟩ := also
    exact Tree.binds_leaf _ _
  | .vector element length, value, other, tree, otherTree, represents, also => by
    obtain ⟨elements, _, sized, holds⟩ := represents
    obtain ⟨others, _, otherSized, otherHolds⟩ := also
    -- Vectors of one schema have equally many elements.
    exact Tree.binds_of_holds (Schema.binds element) holds otherHolds (sized.trans otherSized.symm)
  | .list element maxLength, value, other, tree, otherTree, represents, also => by
    obtain ⟨elements, content, _, bounded, holds, rfl⟩ := represents
    obtain ⟨others, otherContent, _, otherBounded, otherHolds, rfl⟩ := also
    apply Tree.binds_withLength
    intro same
    exact Tree.binds_of_holds (Schema.binds element) holds otherHolds
      (length_eq_of_word bounded otherBounded same)
  | .bitvector length, value, other, tree, otherTree, represents, also => by
    obtain ⟨_, _, _, rfl⟩ := represents
    obtain ⟨_, _, _, rfl⟩ := also
    exact Tree.binds_ofBytes _ _ _
  | .bitlist maxLength, value, other, tree, otherTree, represents, also => by
    obtain ⟨_, _, _, rfl⟩ := represents
    obtain ⟨_, _, _, rfl⟩ := also
    exact Tree.binds_withLength fun _ => Tree.binds_ofBytes _ _ _
  | .container fields, value, other, tree, otherTree, represents, also => by
    obtain ⟨members, nodes, _, each, rfl⟩ := represents
    obtain ⟨others, otherNodes, _, otherEach, rfl⟩ := also
    exact Tree.binds_ofNodes
      (Schema.bindsFields fields members others nodes otherNodes each otherEach)
  | .union variants, value, other, tree, otherTree, represents, also => by
    obtain ⟨selector, payload, variant, _, chosen, rfl⟩ := represents
    obtain ⟨otherSelector, otherPayload, otherVariant, _, otherChosen, rfl⟩ := also
    apply Tree.binds_withSelector
    rintro rfl
    exact Schema.bindsVariant variants _ payload otherPayload variant otherVariant chosen
      otherChosen

/-- The roots of the members of a container bind their trees one by one. -/
theorem Schema.bindsFields : (fields : List Field) → (members others : List Value) →
    (nodes otherNodes : List Tree) → Schema.RepresentsFields fields members nodes →
      Schema.RepresentsFields fields others otherNodes → List.Forall₂ Tree.Binds nodes otherNodes
  | [], [], [], [], [], _, _ => .nil
  | ⟨_, schema⟩ :: fields, member :: members, other :: others, node :: nodes,
      otherNode :: otherNodes, represents, also =>
    .cons (Schema.binds schema member other node otherNode represents.1 also.1)
      (Schema.bindsFields fields members others nodes otherNodes represents.2 also.2)

/-- The roots of the trees of one variant bind them. -/
theorem Schema.bindsVariant : (variants : List (Option Schema)) → (selector : Nat) →
    (payload other : Option Value) → (tree otherTree : Tree) →
      Schema.RepresentsVariant variants selector payload tree →
        Schema.RepresentsVariant variants selector other otherTree → tree.Binds otherTree
  | some schema :: _, 0, some value, some other, tree, otherTree, represents, also =>
    Schema.binds schema value other tree otherTree represents also
  | none :: _, 0, none, none, tree, otherTree, represents, also => by
    -- A variant with no payload is the zero chunk on both sides.
    obtain rfl : tree = .leaf Chunk.zero := represents
    obtain rfl : otherTree = .leaf Chunk.zero := also
    exact Tree.binds_leaf _ _
  | some _ :: rest, selector + 1, payload, other, tree, otherTree, represents, also =>
    Schema.bindsVariant rest selector payload other tree otherTree represents also
  | none :: rest, selector + 1, payload, other, tree, otherTree, represents, also =>
    Schema.bindsVariant rest selector payload other tree otherTree represents also

end

namespace View

/-- The view of a value has the schema it was made for. -/
theorem schema_ofValue {schema : Schema} {value : Value} {view : View}
    (built : ofValue schema value = .ok view) : view.schema = schema := by
  simp only [ofValue, bind_eq_ok, pure_eq_ok, Except.ok.injEq] at built
  obtain ⟨tree, _, rfl⟩ := built
  rfl

/-- Canonical views of one schema with equal roots are equal, or their trees collide. -/
theorem Canonical.binds {first second : View} (canonical : first.Canonical)
    (also : second.Canonical) (schemas : first.schema = second.schema)
    (roots : first.root = second.root) : first = second ∨ first.tree.Collision second.tree := by
  obtain ⟨schema, tree⟩ := first
  obtain ⟨other, otherTree⟩ := second
  -- Both trees represent values of the one schema.
  obtain rfl : schema = other := schemas
  obtain ⟨_, value, represents⟩ := canonical
  obtain ⟨_, otherValue, otherRepresents⟩ := also
  rcases Schema.binds schema _ _ _ _ represents otherRepresents roots with rfl | collision
  · exact .inl rfl
  · exact .inr collision

/--
Root binding: values of a schema whose views have equal roots are read back as equal values, and
different serializations are decoded into views with different roots, unless at one same position
the two trees hash different pairs of roots to one digest.
-/
theorem root_binding {schema : Schema} (accepted : schema.Accepted) :
    (∀ (first second : Value) (firstView secondView : View),
      ofValue schema first = .ok firstView → ofValue schema second = .ok secondView →
        firstView.root = secondView.root →
          (∃ value, firstView.toValue = .ok value ∧ secondView.toValue = .ok value) ∨
            firstView.tree.Collision secondView.tree) ∧
    (∀ (first second : Bytes) (firstView secondView : View),
      decode schema first = .ok firstView → decode schema second = .ok secondView →
        first ≠ second → firstView.root ≠ secondView.root ∨
          firstView.tree.Collision secondView.tree) := by
  constructor
  · intro first second firstView secondView built otherBuilt roots
    -- Equal trees are read as one value, and other trees with one root collide.
    have canonical := canonical_ofValue accepted built
    have schemas : firstView.schema = secondView.schema := by
      rw [schema_ofValue built, schema_ofValue otherBuilt]
    rcases canonical.binds (canonical_ofValue accepted otherBuilt) schemas roots with rfl | found
    · obtain ⟨value, held, _⟩ := canonical.rebuilt
      exact .inl ⟨value, held, held⟩
    · exact .inr found
  · intro first second firstView secondView read otherRead differ
    -- Equal trees would encode to the same bytes, which were assumed to differ.
    by_cases roots : firstView.root = secondView.root
    · have schemas : firstView.schema = secondView.schema := by
        rw [(decode_eq_ok.mp read).1, (decode_eq_ok.mp otherRead).1]
      rcases (canonical_decode accepted read).binds (canonical_decode accepted otherRead) schemas
        roots with rfl | found
      · exact absurd (decode_injective accepted read otherRead rfl) differ
      · exact .inr found
    · exact .inl roots

/-- A number in both of its forms behind a selector, and payloads that the selector tells apart. -/
theorem root_binding_union :
    (∃ first second,
      ofValue (.union [none, some (.scalar .uint256)]) (.union 1 (some (.uint 5))) = .ok first ∧
      ofValue (.union [none, some (.scalar .uint256)])
        (.union 1 (some (.uint256 (Chunk.padded [5])))) = .ok second ∧
      first.root = second.root ∧
      ((∃ value, first.toValue = .ok value ∧ second.toValue = .ok value) ∨
        first.tree.Collision second.tree)) ∧
    (∃ first second, decode (.union [none, some (.scalar .uint256)]) [0, 0, 0, 0] = .ok first ∧
      decode (.union [none, some (.scalar .uint256)]) ([1, 0, 0, 0] ++ List.replicate 32 0) =
        .ok second ∧
      (first.root ≠ second.root ∨ first.tree.Collision second.tree)) := by
  have accepted : (Schema.union [none, some (.scalar .uint256)]).Accepted :=
    ⟨⟨trivial, trivial⟩, rfl⟩
  obtain ⟨numbers, bytes⟩ := root_binding accepted
  -- The empty variant and the number zero have the same chunk below the selector.
  refine ⟨⟨_, _, rfl, rfl, rfl, ?_⟩, ⟨_, _, rfl, rfl, ?_⟩⟩
  · exact numbers (.union 1 (some (.uint 5))) (.union 1 (some (.uint256 (Chunk.padded [5])))) _ _
      rfl rfl rfl
  · exact bytes [0, 0, 0, 0] ([1, 0, 0, 0] ++ List.replicate 32 0) _ _ rfl rfl (by decide)

end View

end Ssz
