import Ssz.Proofs.View.OfValue
import Ssz.Proofs.Value.Default

/-! Default views are those of the default values, and their parts always fit. -/

namespace Ssz

mutual

/-- The tree of the default value, where parts that would not fit are refused. -/
def Schema.defaultTree? : Schema → Except ViewError Tree
  | .vector element length =>
    let depth := (Schema.vector element length).depth
    match element.scalar? with
    | some _ => .ok (Tree.zero depth)
    | none => do Tree.replicate (← element.defaultTree?) length depth
  | .container fields => do
    Tree.fill (← Schema.defaultTrees? fields) (Schema.container fields).depth
  | .union variants => do return (← Schema.defaultVariant? variants).withSelector 0
  -- Nothing is put together for the other schemas.
  | schema => .ok schema.defaultTree

/-- The default trees of fields, none of which is refused. -/
def Schema.defaultTrees? : List Field → Except ViewError (List Tree)
  | [] => .ok []
  | ⟨_, schema⟩ :: fields => do
    let tree ← schema.defaultTree?
    return tree :: (← Schema.defaultTrees? fields)

/-- The default tree of the first variant, a zero leaf where that is the empty variant. -/
def Schema.defaultVariant? : List (Option Schema) → Except ViewError Tree
  | some schema :: _ => schema.defaultTree?
  | _ => .ok (Tree.zero 0)

end

namespace Schema

/-- There are as many default trees as fields. -/
theorem length_defaultTrees (fields : List Field) :
    (defaultTrees fields).length = fields.length := by
  induction fields with
  | nil => rfl
  | cons field fields ih =>
    obtain ⟨name, schema⟩ := field
    simp [defaultTrees, ih]

end Schema

mutual

/-- No part of the default tree of an accepted schema is refused. -/
theorem Schema.defaultTree?_eq_ok : (schema : Schema) → schema.Accepted →
    schema.defaultTree? = .ok schema.defaultTree
  | .scalar _, _ => rfl
  | .vector element length, accepted => by
    have each := Schema.defaultTree?_eq_ok element accepted.1
    rw [Schema.defaultTree?, Schema.defaultTree]
    cases own : element.scalar? with
    | some type =>
      -- No scalar is copied, as the chunks of a level are zero already.
      rfl
    | none =>
      -- The copies fit, so none of them is replaced by a zero subtree.
      simp only [each, ok_bind, accepted.replicate_eq_ok own]
      rfl
  | .list _ _, _ => rfl
  | .bitvector _, _ => rfl
  | .bitlist _, _ => rfl
  | .container fields, accepted => by
    have each := Schema.defaultTrees?_eq_ok fields accepted.1
    have fits := Schema.container_fits fields
    rw [← Schema.length_defaultTrees] at fits
    rw [Schema.defaultTree?, Schema.defaultTree, each, ok_bind,
      Tree.fill_eq_ok accepted.depth_lt fits]
    rfl
  | .union variants, accepted => by
    rw [Schema.defaultTree?, Schema.defaultTree,
      Schema.defaultVariant?_eq_ok variants accepted.1, ok_bind]
    rfl

/-- No part of the default trees of accepted fields is refused. -/
theorem Schema.defaultTrees?_eq_ok : (fields : List Field) → Schema.AcceptedFields fields →
    Schema.defaultTrees? fields = .ok (Schema.defaultTrees fields)
  | [], _ => rfl
  | ⟨_, schema⟩ :: fields, accepted => by
    have first := Schema.defaultTree?_eq_ok schema accepted.1
    have rest := Schema.defaultTrees?_eq_ok fields accepted.2
    simp [Schema.defaultTrees?, Schema.defaultTrees, first, rest]

/-- No part of the default tree of the first of accepted variants is refused. -/
theorem Schema.defaultVariant?_eq_ok : (variants : List (Option Schema)) →
    Schema.AcceptedVariants variants →
      Schema.defaultVariant? variants = .ok (Schema.defaultVariant variants)
  | [], _ => rfl
  | none :: _, _ => rfl
  | some schema :: _, accepted => Schema.defaultTree?_eq_ok schema accepted.1

end

namespace View

/--
The default view of an accepted schema is the view of its default value, which is read back from
it, and no zero subtree stands in for parts that would not fit.
-/
theorem ofValue_defaultValue {schema : Schema} (accepted : schema.Accepted) :
    ofValue schema schema.defaultValue = .ok (ofDefault schema) ∧
      (ofDefault schema).toValue = .ok schema.defaultValue ∧
      schema.defaultTree? = .ok schema.defaultTree := by
  -- The tree that represents a value is both the one built for it and the one read back.
  have represents := Schema.represents_default schema accepted
  exact ⟨ofValue_of_represents accepted represents,
    Schema.valueOf_of_represents schema accepted _ _ represents,
    Schema.defaultTree?_eq_ok schema accepted⟩

/-- Three containers in a vector with room for four, behind a wide integer and an empty choice. -/
theorem ofValue_defaultValue_nested :
    ofValue (.container [⟨"wide", .scalar .uint256⟩, ⟨"choice", .union [none, some (.bitlist 9)]⟩,
        ⟨"entries", .vector (.container [⟨"flags", .bitvector 3⟩,
          ⟨"numbers", .list (.scalar .uint16) 5⟩]) 3⟩])
      (.container [.uint256 Chunk.zero, .union 0 none,
        .sequence (List.replicate 3 (.container [.bits [false, false, false], .sequence []]))]) =
      .ok (ofDefault (.container [⟨"wide", .scalar .uint256⟩,
        ⟨"choice", .union [none, some (.bitlist 9)]⟩,
        ⟨"entries", .vector (.container [⟨"flags", .bitvector 3⟩,
          ⟨"numbers", .list (.scalar .uint16) 5⟩]) 3⟩])) := by
  -- Every kind of member is at hand, and the fourth place of the vector is padded.
  have accepted : (Schema.container [⟨"wide", .scalar .uint256⟩,
      ⟨"choice", .union [none, some (.bitlist 9)]⟩,
      ⟨"entries", .vector (.container [⟨"flags", .bitvector 3⟩,
        ⟨"numbers", .list (.scalar .uint16) 5⟩]) 3⟩]).Accepted :=
    ⟨⟨trivial, ⟨⟨by cbv, trivial⟩, rfl⟩, ⟨⟨⟨by cbv, ⟨trivial, rfl⟩, trivial⟩, rfl⟩, rfl⟩,
      trivial⟩, rfl⟩
  exact (ofValue_defaultValue accepted).1

end View

end Ssz
