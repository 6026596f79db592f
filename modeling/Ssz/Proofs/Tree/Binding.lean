import Ssz.Proofs.Tree.Full
import Ssz.Tree.Position

/-! Equal roots reveal equal trees, or two different pairs of roots that hash alike. -/

namespace Ssz.Tree

/--
At one same position two trees have branches whose pairs of child roots differ but have the same
hash.
-/
def Collision (first second : Tree) : Prop :=
  ∃ turns left right otherLeft otherRight,
    first.descend turns = some (branch left right) ∧
    second.descend turns = some (branch otherLeft otherRight) ∧
    (left.root, right.root) ≠ (otherLeft.root, otherRight.root) ∧
    hashPair left.root right.root = hashPair otherLeft.root otherRight.root

/-- Trees with equal roots are equal, or their hashes collide. -/
def Binds (first second : Tree) : Prop :=
  first.root = second.root → first = second ∨ Collision first second

/-- The root of a leaf binds the leaf. -/
theorem binds_leaf (first second : Chunk) : Binds (leaf first) (leaf second) := by
  intro same
  exact .inl (congrArg leaf same)

section Children

variable {low high otherLow otherHigh : Tree}

/-- Equal roots of branches come from equal roots of the children, or from a collision. -/
theorem roots_of_branch
    (same : (branch low high).root = (branch otherLow otherHigh).root) :
    (low.root = otherLow.root ∧ high.root = otherHigh.root) ∨
      Collision (branch low high) (branch otherLow otherHigh) := by
  -- Different pairs of child roots with one hash are a collision at the top.
  by_cases inputs : (low.root, high.root) = (otherLow.root, otherHigh.root)
  · exact .inl (Prod.mk.inj inputs)
  · exact .inr ⟨[], low, high, otherLow, otherHigh, rfl, rfl, inputs, same⟩

/-- A collision of the left children is one of the branches. -/
theorem Collision.left (high otherHigh : Tree) (collision : Collision low otherLow) :
    Collision (branch low high) (branch otherLow otherHigh) := by
  obtain ⟨turns, a, b, c, d, first, second, differ, hashed⟩ := collision
  exact ⟨false :: turns, a, b, c, d, first, second, differ, hashed⟩

/-- A collision of the right children is one of the branches. -/
theorem Collision.right (low otherLow : Tree) (collision : Collision high otherHigh) :
    Collision (branch low high) (branch otherLow otherHigh) := by
  obtain ⟨turns, a, b, c, d, first, second, differ, hashed⟩ := collision
  exact ⟨true :: turns, a, b, c, d, first, second, differ, hashed⟩

/-- The root of a branch binds the branch, if the roots of its children bind them. -/
theorem binds_branch (lower : Binds low otherLow) (upper : Binds high otherHigh) :
    Binds (branch low high) (branch otherLow otherHigh) := by
  intro same
  rcases roots_of_branch same with ⟨lows, highs⟩ | collision
  · -- The children are compared left to right, and the first collision found is enough.
    rcases lower lows with rfl | collision
    · rcases upper highs with rfl | collision
      · exact .inl rfl
      · exact .inr (collision.right low low)
    · exact .inr (collision.left high otherHigh)
  · exact .inr collision

end Children

/-- The root of a full tree binds it, if the roots of its nodes bind them one by one. -/
theorem binds_full {depth : Nat} {first second : Nat → Tree}
    (each : ∀ i, Binds (first i) (second i)) : Binds (full depth first) (full depth second) := by
  induction depth generalizing first second with
  | zero => exact each 0
  | succ depth ih => exact binds_branch (ih each) (ih fun i => each (i + 2 ^ depth))

/-- The root of a tree of bytes binds the tree. -/
theorem binds_ofBytes (depth : Nat) (first second : Bytes) :
    Binds (ofBytes depth first) (ofBytes depth second) :=
  binds_full fun _ => binds_leaf _ _

/-- The root of a tree of nodes binds it among trees with as many nodes. -/
theorem binds_ofNodes {depth : Nat} {first second : List Tree}
    (each : List.Forall₂ Binds first second) :
    Binds (ofNodes depth first) (ofNodes depth second) := by
  apply binds_full
  intro i
  -- Behind the last node both trees are padded with the same zero leaf.
  by_cases within : i < first.length
  · have also : i < second.length := each.length_eq ▸ within
    simpa [List.getD_eq_getElem?_getD, within, also] using each.get within also
  · have also : ¬ i < second.length := each.length_eq ▸ within
    simpa [List.getD_eq_getElem?_getD, within, also] using binds_leaf Chunk.zero Chunk.zero

end Ssz.Tree
