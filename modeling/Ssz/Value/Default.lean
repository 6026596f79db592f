import Ssz.Value.Tree

/-! The tree of the default value of a schema, whose repeated parts are shared. -/

namespace Ssz

mutual

/-- The tree of the default value; a zero subtree stands in where parts would not fit. -/
def Schema.defaultTree : Schema → Tree
  | .scalar type => Tree.zero (Schema.scalar type).depth
  | .bitvector length => Tree.zero (Schema.bitvector length).depth
  | .list element maxLength => (Tree.zero (Schema.list element maxLength).depth).withLength 0
  | .bitlist maxLength => (Tree.zero (Schema.bitlist maxLength).depth).withLength 0
  | .vector element length =>
    let depth := (Schema.vector element length).depth
    match element.scalar? with
    -- Scalars start at zero, so their chunks are the zero chunks of the level.
    | some _ => Tree.zero depth
    | none => (Tree.replicate element.defaultTree length depth).toOption.getD (Tree.zero depth)
  | .container fields =>
    let depth := (Schema.container fields).depth
    (Tree.fill (Schema.defaultTrees fields) depth).toOption.getD (Tree.zero depth)
  | .union variants => (Schema.defaultVariant variants).withSelector 0

/-- The default trees of fields. -/
def Schema.defaultTrees : List Field → List Tree
  | [] => []
  | ⟨_, schema⟩ :: fields => schema.defaultTree :: Schema.defaultTrees fields

/-- The default tree of the first variant, a zero leaf where that is the empty variant. -/
def Schema.defaultVariant : List (Option Schema) → Tree
  | some schema :: _ => schema.defaultTree
  | _ => Tree.zero 0

end

end Ssz
