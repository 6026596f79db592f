import Ssz.Proofs.Opening

/-! Checks of openings: they accept what the tree itself has, unless a step of theirs is forged. -/

namespace Ssz

/-- A step of a check: the pair of roots that is hashed for the branch at a position. -/
structure CheckStep where
  position : Gindex
  left : Chunk
  right : Chunk

namespace CheckStep

/-- The step from a node at a position, and its sibling, to their parent. -/
def above (position : Gindex) (current sibling : Chunk) : CheckStep :=
  if position.isLeft then ⟨position.parent, current, sibling⟩
  else ⟨position.parent, sibling, current⟩

/-- A step leads to the parent of the node that it starts from. -/
@[simp] theorem position_above (position : Gindex) (current sibling : Chunk) :
    (above position current sibling).position = position.parent := by
  rw [above]
  split <;> rfl

/-- The root that a step computes for its position. -/
def hash (step : CheckStep) : Chunk :=
  hashPair step.left step.right

end CheckStep

/-- The steps that a check takes from a node at a position, along the branch, up to the root. -/
def checkSteps (position : Gindex) (current : Chunk) : (branch : List Chunk) → List CheckStep
  | [] => []
  | sibling :: rest =>
    let step := CheckStep.above position current sibling
    step :: checkSteps position.parent step.hash rest

/-- A first sibling is hashed in the first step, and the check goes on from the root of that. -/
theorem foldBranch_cons (position : Gindex) (current sibling : Chunk) (rest : List Chunk) :
    foldBranch position current (sibling :: rest) =
      foldBranch position.parent (CheckStep.above position current sibling).hash rest := by
  rw [foldBranch, CheckStep.above]
  -- The side of the position puts the sibling on the other side.
  cases position.isLeft <;> simp [CheckStep.hash]

namespace Tree

/--
A step is forged against a tree: it hashes another pair than the roots of the two children at its
position, and has the same result.
-/
def Forged (tree : Tree) (step : CheckStep) : Prop :=
  ∃ left right, tree.navigate step.position = .ok (branch left right) ∧
    (step.left, step.right) ≠ (left.root, right.root) ∧
    hashPair step.left step.right = hashPair left.root right.root

/-- What a check leads from to the root of a tree is an opening of the tree, or a step is forged. -/
theorem opened_or_forged {tree node : Tree} {gindex : Gindex} {siblings branch : List Chunk}
    {leaf : Chunk} (opened : tree.opening gindex.path [] = some (node, siblings))
    (sized : branch.length = gindex.depth) (reached : foldBranch gindex leaf branch = tree.root) :
    (leaf = node.root ∧ branch = siblings) ∨
      ∃ step ∈ checkSteps gindex leaf branch, tree.Forged step := by
  -- The steps above the first one are compared with the tree first, from the root downward.
  induction branch generalizing gindex leaf node siblings with
  | nil =>
    have top : gindex.path = [] := List.length_eq_zero_iff.mp (by simp [← sized])
    simp only [top, opening, Option.some.injEq, Prod.mk.injEq] at opened
    obtain ⟨rfl, rfl⟩ := opened
    exact .inl ⟨reached, rfl⟩
  | cons sibling rest ih =>
    -- The tree is opened at the parent, which has a branch that is one sibling shorter.
    have below : 0 < gindex.depth := by simp [← sized]
    have shorter : rest.length = gindex.parent.depth := by
      rw [Gindex.depth_parent below, List.length_cons] at sized
      exact Nat.succ.inj sized
    rw [Gindex.path_eq_parent below, opening_append] at opened
    obtain ⟨⟨above, upper⟩, openedAbove, opened⟩ := Option.bind_eq_some_iff.mp opened
    rw [foldBranch_cons] at reached
    rw [checkSteps]
    cases above with
    | leaf chunk => cases opened
    | branch low high =>
      rcases ih openedAbove shorter reached with ⟨hashed, rfl⟩ | ⟨step, later, forged⟩
      · -- The first step computes the root of its branch, so its pair is the own one or forged.
        by_cases own : ((CheckStep.above gindex leaf sibling).left,
            (CheckStep.above gindex leaf sibling).right) = (low.root, high.root)
        · left
          rw [CheckStep.above] at own
          cases side : gindex.isLeft <;> simp_all [opening]
        · -- The parent of the node is the branch whose children are hashed by other roots.
          have found : tree.descend gindex.parent.path = some (.branch low high) := by
            rw [← opening_fst tree _ [], openedAbove]
            rfl
          refine .inr ⟨_, List.mem_cons_self, low, high, ?_, own, hashed⟩
          rw [CheckStep.position_above]
          exact atPosition_eq_ok.mpr ⟨Gindex.parent_ne_zero below, found⟩
      · exact .inr ⟨step, List.mem_cons_of_mem _ later, forged⟩

end Tree

/--
A node and a branch that verify at a position against the root of a tree are the ones that the tree
has there, or a step of the check is forged. Branches of another length than the depth of the
position are never accepted, and nothing is at the position zero.
-/
theorem verifyBranch_sound (tree : Tree) (gindex : Gindex) :
    (∀ node, tree.navigate gindex = .ok node →
      ∃ proof, tree.prove gindex = .ok proof ∧
        ∀ leaf branch, verifyBranch leaf branch gindex tree.root = true →
          (leaf = node.root ∧ branch = proof.branch) ∨
            ∃ step ∈ checkSteps gindex leaf branch, tree.Forged step) ∧
    ∀ leaf branch root, branch.length ≠ gindex.depth ∨ gindex = 0 →
      verifyBranch leaf branch gindex root = false := by
  constructor
  · intro node found
    obtain ⟨siblings, _, opened, proved⟩ := Tree.prove_of_navigate found
    refine ⟨_, proved, ?_⟩
    intro leaf branch verified
    simp only [verifyBranch, Bool.and_eq_true, beq_iff_eq] at verified
    exact Tree.opened_or_forged opened verified.1.2 verified.2
  · intro leaf branch root refused
    -- The length is compared before anything is hashed, and so is the position.
    rcases refused with other | rfl <;> simp_all [verifyBranch]

/-- The middle one of three leaves at different depths, with its own branch and with a short one. -/
theorem verifyBranch_sound_ragged :
    ∃ tree proof,
      tree = Tree.branch (.leafOfBytes [1]) (.branch (.leafOfBytes [2]) (.leafOfBytes [3])) ∧
      tree.navigate 6 = .ok (.leafOfBytes [2]) ∧ tree.prove 6 = .ok proof ∧
      verifyBranch (.padded [2]) [.padded [3], .padded [1]] 6 tree.root = true ∧
      ((Chunk.padded [2] = (Tree.leafOfBytes [2]).root ∧
          [Chunk.padded [3], Chunk.padded [1]] = proof.branch) ∨
        ∃ step ∈ checkSteps 6 (.padded [2]) [.padded [3], .padded [1]], tree.Forged step) ∧
      verifyBranch (.padded [2]) [.padded [3]] 6 tree.root = false := by
  -- The position 6 is reached by a right turn and then a left one.
  have found : (Tree.branch (.leafOfBytes [1])
      (.branch (.leafOfBytes [2]) (.leafOfBytes [3]))).navigate 6 =
        .ok (.leafOfBytes [2]) := rfl
  have opened : (Tree.branch (.leafOfBytes [1])
      (.branch (.leafOfBytes [2]) (.leafOfBytes [3]))).opening (Gindex.path 6) [] =
        some (.leafOfBytes [2], [.padded [3], .padded [1]]) := rfl
  obtain ⟨_, verified⟩ := Tree.verifyBranch_opening (by decide) opened
  obtain ⟨sound, refused⟩ := verifyBranch_sound
    (.branch (.leafOfBytes [1]) (.branch (.leafOfBytes [2]) (.leafOfBytes [3]))) 6
  obtain ⟨proof, proved, own⟩ := sound _ found
  exact ⟨_, proof, rfl, found, proved, verified, own _ _ verified, refused _ _ _ (.inl (by decide))⟩

end Ssz
