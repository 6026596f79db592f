import Ssz.Proofs.Tree.Walk

/-! Trees as stores: a subtree is found where it was put, and nothing off its way moves. -/

namespace Ssz.Tree

/-- A branch that is passed on the way down, with the turn that is taken at it. -/
structure Passed where
  left : Tree
  right : Tree
  turn : Bool

/-- The branch made anew around another tree in place of the child on the way. -/
def Passed.around (passed : Passed) (child : Tree) : Tree :=
  if passed.turn then branch passed.left child else branch child passed.right

/-- The branches passed along a list of turns, the last one first, in front of earlier ones. -/
def spine : Tree → (turns : List Bool) → (above : List Passed) → Option (List Passed)
  | _, [], above => some above
  | leaf _, _ :: _, _ => none
  | branch left right, turn :: turns, above =>
    spine (if turn then right else left) turns (⟨left, right, turn⟩ :: above)

/-- The tree around a subtree, whose branches are made anew from the last one passed to the root. -/
def climbSpine (subtree : Tree) (passed : List Passed) : Tree :=
  passed.foldl (fun child branch => branch.around child) subtree

/-- Climbing from a replaced subtree goes on from the child that was replaced with it. -/
theorem map_climbSpine_spine (tree : Tree) (turns : List Bool) (subtree : Tree)
    (above : List Passed) :
    (tree.spine turns above).map (climbSpine subtree) =
      (tree.graft turns subtree).map (climbSpine · above) := by
  -- Each branch that the walk records is the next one that the climb makes anew.
  induction turns generalizing tree above with
  | nil => simp [spine, graft]
  | cons turn turns ih =>
    cases tree with
    | leaf chunk => rfl
    | branch left right =>
      cases turn with
      | false =>
        rw [spine, ih, graft_false, Option.map_map]
        rfl
      | true =>
        rw [spine, ih, graft_true, Option.map_map]
        rfl

/-- Replacing a subtree records the branches on the way to it and makes them anew on the way up. -/
theorem graft_eq_climbSpine (tree : Tree) (turns : List Bool) (subtree : Tree) :
    tree.graft turns subtree = (tree.spine turns []).map (climbSpine subtree) := by
  rw [map_climbSpine_spine]
  simp [climbSpine]

section Walks

variable {tree subtree updated : Tree} {gindex child joined other : Gindex}

/-- A subtree is replaced at a position exactly when its path can be gone and it is not zero. -/
theorem update_eq_ok : tree.update gindex subtree = .ok updated ↔
    gindex ≠ 0 ∧ tree.graft gindex.path subtree = some updated :=
  atPosition_eq_ok

/-- A subtree is replaced exactly where one is found. -/
theorem exists_update_iff : (∃ updated, tree.update gindex subtree = .ok updated) ↔
    ∃ node, tree.navigate gindex = .ok node := by
  simp only [update_eq_ok, navigate, atPosition_eq_ok, exists_and_left, ← Option.isSome_iff_exists,
    isSome_graft]

/-- Below a position, what is found after a replacement is what the replacement holds there. -/
theorem navigate_update_below (done : tree.update gindex subtree = .ok updated)
    (found : gindex.concat child = some joined) :
    updated.navigate joined =
      (subtree.navigate child).mapError fun _ => .gindexOutOfBounds joined := by
  obtain ⟨_, grafted⟩ := update_eq_ok.mp done
  obtain ⟨_, nonzero, _⟩ := Gindex.concat_eq_some.mp found
  -- Only the turns count, and those to the joined position pass the replacement.
  have walked : updated.descend joined.path = subtree.descend child.path := by
    rw [Gindex.path_concat found, descend_graft_append grafted]
  rw [navigate, navigate, mapError_atPosition nonzero (Gindex.concat_ne_zero found)]
  exact atPosition_congr walked

/-- Off the way to a replacement everything is as it was. -/
theorem navigate_update_beside (done : tree.update gindex subtree = .ok updated)
    (apart : Apart gindex.path other.path) : updated.navigate other = tree.navigate other :=
  atPosition_congr (descend_graft_of_apart (update_eq_ok.mp done).2 apart)

/-- Putting back what is found at a position leaves the tree as it is. -/
theorem update_navigate (found : tree.navigate gindex = .ok subtree) :
    tree.update gindex subtree = .ok tree := by
  obtain ⟨nonzero, reached⟩ := atPosition_eq_ok.mp found
  exact update_eq_ok.mpr ⟨nonzero, graft_self reached⟩

/-- Of two replacements at one position only the second is left. -/
theorem update_update (tree : Tree) (gindex : Gindex) (first second : Tree) :
    (tree.update gindex first >>= (·.update gindex second)) = tree.update gindex second := by
  by_cases zero : gindex = 0
  · simp [update, atPosition, zero]
  · simp only [update, atPosition, if_neg zero]
    rw [← graft_graft tree gindex.path first second]
    cases tree.graft gindex.path first <;> rfl

/-- Two replacements in turn succeed as far as the walks to both of them can be gone. -/
theorem toOption_update_bind (nonzero : gindex ≠ 0) (also : other ≠ 0)
    (tree first second : Tree) :
    (tree.update gindex first >>= (·.update other second)).toOption =
      (tree.graft gindex.path first).bind (·.graft other.path second) := by
  -- The positions are not zero, so an update is the graft along its path.
  simp only [update, atPosition, if_neg nonzero, if_neg also]
  cases tree.graft gindex.path first with
  | none => rfl
  | some current =>
    rw [Option.bind_some, ok_bind]
    cases current.graft other.path second <;> rfl

/-- Positions whose paths part are not zero, which has no turns that could part from others. -/
theorem ne_zero_of_apart (apart : Apart gindex.path other.path) : gindex ≠ 0 ∧ other ≠ 0 := by
  -- The path of zero is empty, and the empty path begins every other one.
  constructor
  · intro zero
    rw [zero] at apart
    exact apart.1 List.nil_prefix
  · intro zero
    rw [zero] at apart
    exact apart.2 List.nil_prefix

/-- Replacements at positions off each other's ways are made in either order. -/
theorem update_comm (apart : Apart gindex.path other.path) (tree first second : Tree) :
    (tree.update gindex first >>= (·.update other second)).toOption =
      (tree.update other second >>= (·.update gindex first)).toOption := by
  obtain ⟨nonzero, also⟩ := ne_zero_of_apart apart
  rw [toOption_update_bind nonzero also, toOption_update_bind also nonzero, graft_comm apart]

end Walks

/--
What it means that a position of a tree is a place of its own: it can be read where it can be
written, it holds what was last put there, and it shares nothing with positions off its way.
-/
structure StoresSubtrees (tree : Tree) (gindex : Gindex) : Prop where
  /-- A subtree is replaced exactly where one is found. -/
  inUse : ∀ subtree, (∃ updated, tree.update gindex subtree = .ok updated) ↔
    ∃ node, tree.navigate gindex = .ok node
  /-- The branches on the way are recorded, and made anew from the last one to the root. -/
  rebuilt : ∀ subtree, tree.update gindex subtree =
    atPosition gindex fun turns => (tree.spine turns []).map (climbSpine subtree)
  /-- At the position and below it lies what the replacement holds. -/
  below : ∀ subtree updated, tree.update gindex subtree = .ok updated → ∀ child joined,
    gindex.concat child = some joined → updated.navigate joined =
      (subtree.navigate child).mapError fun _ => .gindexOutOfBounds joined
  /-- At positions off the way to it lies what lay there before. -/
  beside : ∀ subtree updated, tree.update gindex subtree = .ok updated → ∀ other : Gindex,
    Apart gindex.path other.path → updated.navigate other = tree.navigate other
  /-- Putting back what is found leaves the tree as it is. -/
  restores : ∀ node, tree.navigate gindex = .ok node → tree.update gindex node = .ok tree
  /-- The last replacement hides the one before it. -/
  overwrites : ∀ first second,
    (tree.update gindex first >>= (·.update gindex second)) = tree.update gindex second
  /-- Replacements off the way can be made before or after. -/
  commutes : ∀ other : Gindex, Apart gindex.path other.path → ∀ first second,
    (tree.update gindex first >>= (·.update other second)).toOption =
      (tree.update other second >>= (·.update gindex first)).toOption

/-- Every position of every tree is a place of its own. -/
theorem storesSubtrees (tree : Tree) (gindex : Gindex) : StoresSubtrees tree gindex where
  inUse _ := exists_update_iff
  rebuilt subtree := atPosition_congr (graft_eq_climbSpine tree gindex.path subtree)
  below _ _ done _ _ found := navigate_update_below done found
  beside _ _ done _ apart := navigate_update_beside done apart
  restores _ found := update_navigate found
  overwrites := update_update tree gindex
  commutes _ apart := update_comm apart tree

/-- A replacement is found below its own position in a ragged tree, beside a leaf that stays. -/
theorem storesSubtrees_ragged :
    ∃ updated, (branch (leaf Chunk.zero) (leaf Chunk.zero).twice).update 6 (leaf Chunk.zero).twice =
        .ok updated ∧
      updated.navigate 13 = .ok (leaf Chunk.zero) ∧ updated.navigate 2 = .ok (leaf Chunk.zero) := by
  have laws := storesSubtrees (branch (leaf Chunk.zero) (leaf Chunk.zero).twice) 6
  refine ⟨_, rfl, ?_, ?_⟩
  · exact laws.below _ _ rfl 3 13 (by decide)
  · exact laws.beside _ _ rfl 2 (by decide)

end Ssz.Tree
