import Ssz.Proofs.Truth
import Ssz.Proofs.Value.Report

/-! Errors of values tell the truth: a length that is too great is greater, and so on. -/

namespace Ssz

/-- Serializing a scalar tells the truth, as it only names the type that was expected. -/
theorem Scalar.failsOnly_encode (type : Scalar) (value : Value) :
    FailsOnly ViewError.Truthful (type.encode value) := by
  -- A value that does not fit is refused with the type, which says nothing about the value.
  by_cases fits : type.fits value
  · obtain ⟨bytes, written⟩ := encode_of_fits fits
    rw [written]
    exact .ok bytes
  · rw [encode_of_not_fits fits]
    exact .error trivial

/-- Serializing several scalars tells the truth. -/
theorem Scalar.failsOnly_encodeAll (type : Scalar) (values : List Value) :
    FailsOnly ViewError.Truthful (type.encodeAll values) :=
  (FailsOnly.mapM fun value _ => type.failsOnly_encode value).bind fun _ _ => .ok _

namespace Tree

section Contents

variable {element : Schema} (tree : Tree) (depth : Nat)

/-- Building the content of a sequence tells the truth if building its elements does. -/
theorem failsOnly_ofSequence {treeOf : Value → Except ViewError Tree}
    (each : ∀ value, FailsOnly ViewError.Truthful (treeOf value)) (elements : List Value) :
    FailsOnly ViewError.Truthful (ofSequence element treeOf elements depth) := by
  -- Scalars are packed and other elements built one by one; then both fill the level.
  unfold ofSequence
  split
  · rename_i type _
    exact (type.failsOnly_encodeAll elements).bind fun bytes _ => failsOnly_fill depth _
  · refine (FailsOnly.mapM fun value _ => each value).bind fun nodes _ => ?_
    exact failsOnly_fill depth nodes

/-- Reading packed bytes tells the truth. -/
theorem failsOnly_packedContent (length : Nat) :
    FailsOnly ViewError.Truthful (tree.packedContent depth length) :=
  (tree.failsOnly_chunksAtDepth depth _).bind fun _ _ => .ok _

/-- Reading packed bits tells the truth. -/
theorem failsOnly_packedBits (length : Nat) :
    FailsOnly ViewError.Truthful (tree.packedBits depth length) :=
  (tree.failsOnly_packedContent depth _).bind fun _ _ => .ok _

/-- Reading the elements of a sequence tells the truth if reading one of them does. -/
theorem failsOnly_elements {valueOf : Tree → Except ViewError Value}
    (each : ∀ node, FailsOnly ViewError.Truthful (valueOf node)) (length : UInt64) :
    FailsOnly ViewError.Truthful (elements element valueOf tree depth length) := by
  unfold elements
  split
  · exact (tree.failsOnly_packedContent depth _).bind fun _ _ => .ok _
  · exact (tree.failsOnly_nodesAtDepth depth length).bind fun nodes _ => .mapM fun node _ => each node

/-- Reading the content and the length of a list tells the truth. -/
theorem failsOnly_listParts : FailsOnly ViewError.Truthful tree.listParts := by
  -- A leaf has no parts, and a length is read from a leaf only.
  cases tree with
  | leaf chunk => exact .error trivial
  | branch content length =>
    rw [listParts]
    split
    · exact .ok _
    · exact .error trivial

/-- Reading the variant and the selector of a union tells the truth. -/
theorem failsOnly_unionParts (variants : List (Option Schema)) :
    FailsOnly ViewError.Truthful (tree.unionParts variants) := by
  cases tree with
  | leaf chunk => exact .error trivial
  | branch variant selector =>
    rw [unionParts]
    split
    · -- A selector is refused just where it does not number a variant.
      exact .ite (fun above => .error above) fun _ => .ok _
    · exact .error trivial

end Contents

end Tree

mutual

/-- Building the tree of a value tells the truth about the value. -/
theorem Schema.failsOnly_treeOf : (schema : Schema) → (value : Value) →
    FailsOnly ViewError.Truthful (schema.treeOf value)
  -- A length that is too great and a selector out of range are just what was compared; all else
  -- names a type that was expected.
  | .scalar type, value => (type.failsOnly_encode value).bind fun _ _ => .ok _
  | .vector element length, value => by
    cases value with
    | sequence elements =>
      refine .ite (fun _ => .error trivial) fun _ => ?_
      exact Tree.failsOnly_ofSequence _ (Schema.failsOnly_treeOf element) elements
    | _ => exact .error trivial
  | .list element maxLength, value => by
    cases value with
    | sequence elements =>
      refine .ite (fun long => .error long) fun _ => ?_
      exact (Tree.failsOnly_ofSequence _ (Schema.failsOnly_treeOf element) elements).bind
        fun _ _ => .ok _
    | _ => exact .error trivial
  | .bitvector length, value => by
    cases value with
    | bits bits => exact .ite (fun _ => .error trivial) fun _ => Tree.failsOnly_fill _ _
    | _ => exact .error trivial
  | .bitlist maxLength, value => by
    cases value with
    | bits bits =>
      refine .ite (fun long => .error long) fun _ => ?_
      exact (Tree.failsOnly_fill _ _).bind fun _ _ => .ok _
    | _ => exact .error trivial
  | .container fields, value => by
    cases value with
    | container members =>
      refine .ite (fun _ => .error trivial) fun _ => ?_
      exact (Schema.failsOnly_treesOf fields members).bind fun nodes _ => Tree.failsOnly_fill _ nodes
    | _ => exact .error trivial
  | .union variants, value => by
    cases value with
    | union selector payload =>
      refine .ite (fun above => .error above) fun _ => ?_
      exact (Schema.failsOnly_variantTree variants selector.toNat payload).bind fun _ _ => .ok _
    | _ => exact .error trivial

/-- Building the trees of members tells the truth about them. -/
theorem Schema.failsOnly_treesOf : (fields : List Field) → (members : List Value) →
    FailsOnly ViewError.Truthful (Schema.treesOf fields members)
  | [], _ => .ok []
  | ⟨_, _⟩ :: _, [] => .ok []
  | ⟨_, schema⟩ :: fields, member :: members =>
    (Schema.failsOnly_treeOf schema member).bind fun _ _ =>
      (Schema.failsOnly_treesOf fields members).bind fun _ _ => .ok _

/-- Building the tree of a payload tells the truth about it. -/
theorem Schema.failsOnly_variantTree : (variants : List (Option Schema)) → (selector : Nat) →
    (payload : Option Value) →
      FailsOnly ViewError.Truthful (Schema.variantTree variants selector payload)
  -- The selector is counted down along the variants, and only the last step can fail.
  | some schema :: _, 0, some value => Schema.failsOnly_treeOf schema value
  | none :: _, 0, none => .ok _
  | some _ :: rest, selector + 1, payload => Schema.failsOnly_variantTree rest selector payload
  | none :: rest, selector + 1, payload => Schema.failsOnly_variantTree rest selector payload
  | [], _, _ => by
    rw [Schema.variantTree]
    · exact .error trivial
    all_goals simp
  | some _ :: _, 0, none => .error trivial
  | none :: _, 0, some _ => .error trivial

end

/-- Computing the root of a value tells the truth about the value. -/
theorem Schema.failsOnly_rootOf (config : HashingConfig) {schema : Schema}
    (accepted : schema.Accepted) (value : Value) :
    FailsOnly ViewError.Truthful (schema.rootOf config value) := by
  rw [Schema.rootOf_eq config schema accepted value]
  exact (schema.failsOnly_treeOf value).map Tree.root

mutual

/-- Reading the value of a tree tells the truth about the tree. -/
theorem Schema.failsOnly_valueOf : (schema : Schema) → (tree : Tree) →
    FailsOnly ViewError.Truthful (schema.valueOf tree)
  -- Each reader is composed of steps that tell the truth, as its definition composes them.
  | .scalar type, tree => by
    rw [Schema.valueOf]
    split
    · exact .ok _
    · exact .error trivial
  | .vector element length, tree =>
    (tree.failsOnly_elements _ (Schema.failsOnly_valueOf element) length).bind fun _ _ => .ok _
  | .list element maxLength, tree =>
    tree.failsOnly_listParts.bind fun (content, length) _ =>
      (content.failsOnly_elements _ (Schema.failsOnly_valueOf element) length).bind fun _ _ => .ok _
  | .bitvector length, tree => (tree.failsOnly_packedBits _ _).bind fun _ _ => .ok _
  | .bitlist maxLength, tree =>
    tree.failsOnly_listParts.bind fun (content, _) _ =>
      (content.failsOnly_packedBits _ _).bind fun _ _ => .ok _
  | .container fields, tree =>
    (tree.failsOnly_nodesAtDepth _ _).bind fun nodes _ =>
      (Schema.failsOnly_valuesOf fields nodes).bind fun _ _ => .ok _
  | .union variants, tree =>
    (tree.failsOnly_unionParts variants).bind fun (variant, selector) _ =>
      (Schema.failsOnly_variantValue variants selector.toNat variant).bind fun _ _ => .ok _

/-- Reading the values of members tells the truth about their trees. -/
theorem Schema.failsOnly_valuesOf : (fields : List Field) → (members : List Tree) →
    FailsOnly ViewError.Truthful (Schema.valuesOf fields members)
  | [], _ => .ok []
  | ⟨_, _⟩ :: _, [] => .ok []
  | ⟨_, schema⟩ :: fields, member :: members =>
    (Schema.failsOnly_valueOf schema member).bind fun _ _ =>
      (Schema.failsOnly_valuesOf fields members).bind fun _ _ => .ok _

/-- Reading the payload of a union tells the truth about its tree. -/
theorem Schema.failsOnly_variantValue : (variants : List (Option Schema)) → (selector : Nat) →
    (tree : Tree) → FailsOnly ViewError.Truthful (Schema.variantValue variants selector tree)
  -- The selector is counted down along the variants, where the empty one has no payload.
  | some schema :: _, 0, tree => (Schema.failsOnly_valueOf schema tree).bind fun _ _ => .ok _
  | none :: _, 0, _ => .ok none
  | some _ :: rest, selector + 1, tree => Schema.failsOnly_variantValue rest selector tree
  | none :: rest, selector + 1, tree => Schema.failsOnly_variantValue rest selector tree
  | [], _, _ => by
    rw [Schema.variantValue]
    · exact .ok none
    all_goals simp

end

end Ssz
