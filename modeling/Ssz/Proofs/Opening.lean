import Ssz.Proofs.Checked
import Ssz.Proofs.Tree.Walk
import Ssz.View.Basic

/-! Openings of trees: the walks down to a node and the climb back up from it follow one path. -/

namespace Ssz

/-- The root over a node and its sibling; a right turn has led past the sibling on the left. -/
def joinAt (turn : Bool) (current sibling : Chunk) : Chunk :=
  if turn then hashPair sibling current else hashPair current sibling

/-- The root reached from a node by undoing the turns to it, the last one first. -/
def climb (current : Chunk) : (turns : List Bool) → (branch : List Chunk) → Chunk
  | turn :: turns, sibling :: branch => climb (joinAt turn current sibling) turns branch
  | _, _ => current

/-- Checking a co-path climbs from the position to the root. -/
theorem foldBranch_eq_climb {gindex : Gindex} {branch : List Chunk} (current : Chunk)
    (sized : branch.length = gindex.depth) :
    foldBranch gindex current branch = climb current gindex.path.reverse branch := by
  -- Each sibling takes the climb from a position to its parent, which is one level higher.
  induction branch generalizing gindex current with
  | nil => simp [foldBranch, climb]
  | cons sibling rest ih =>
    have below : 0 < gindex.depth := by simp [← sized]
    have shorter : rest.length = gindex.parent.depth := by
      rw [Gindex.depth_parent below, List.length_cons] at sized
      exact Nat.succ.inj sized
    rw [foldBranch, ih _ shorter, Gindex.reverse_path below, climb]
    cases left : gindex.isLeft <;> simp [joinAt]

namespace Tree

variable {tree node : Tree} {turns : List Bool} {passed branch : List Chunk}

/-- The walk that gathers a co-path ends at the node that a plain walk finds, or fails like it. -/
theorem opening_fst (tree : Tree) (turns : List Bool) (passed : List Chunk) :
    (tree.opening turns passed).map Prod.fst = tree.descend turns := by
  -- Both walks turn alike, and what is gathered on the way does not steer them.
  induction turns generalizing tree passed with
  | nil => simp [opening, descend]
  | cons turn turns ih =>
    cases tree with
    | leaf chunk => rfl
    | branch left right => cases turn <;> simp [opening, descend, ih]

/-- A walk that gathers a co-path can stop on the way and go on from the node reached. -/
theorem opening_append (tree : Tree) (turns later : List Bool) (passed : List Chunk) :
    tree.opening (turns ++ later) passed =
      (tree.opening turns passed).bind fun found => found.1.opening later found.2 := by
  -- The roots gathered so far are handed on where the first walk stops.
  induction turns generalizing tree passed with
  | nil => simp [opening]
  | cons turn turns ih =>
    cases tree with
    | leaf chunk => simp [opening]
    | branch left right => cases turn <;> simp [opening, ih]

/-- A co-path has one root for each turn, besides those passed before. -/
theorem length_opening (found : tree.opening turns passed = some (node, branch)) :
    branch.length = turns.length + passed.length := by
  -- Each turn passes by one sibling, on the one side or on the other.
  induction turns generalizing tree passed with
  | nil =>
    simp only [opening, Option.some.injEq, Prod.mk.injEq] at found
    simp [found.2]
  | cons turn turns ih =>
    cases tree with
    | leaf chunk => cases found
    | branch left right =>
      cases turn with
      | false => simp [ih found, Nat.add_assoc, Nat.add_comm 1]
      | true => simp [ih found, Nat.add_assoc, Nat.add_comm 1]

/-- Climbing from a node along its co-path leads to the tree, and on along what was passed. -/
theorem climb_opening (found : tree.opening turns passed = some (node, branch))
    (before : List Bool) :
    climb node.root (turns.reverse ++ before) branch = climb tree.root before passed := by
  -- The first turn down is the last one up, right before those that led to the tree.
  induction turns generalizing tree passed before with
  | nil =>
    simp only [opening, Option.some.injEq, Prod.mk.injEq] at found
    simp [found]
  | cons turn turns ih =>
    rw [List.reverse_cons, List.append_assoc, List.singleton_append]
    cases tree with
    | leaf chunk => cases found
    | branch left right =>
      cases turn with
      | false =>
        rw [ih found (false :: before), climb]
        rfl
      | true =>
        rw [ih found (true :: before), climb]
        rfl

/-- Where a node is found it can be replaced, and the replacement has the same co-path. -/
theorem graft_of_opening (found : tree.opening turns passed = some (node, branch))
    (replacement : Tree) :
    ∃ updated, tree.graft turns replacement = some updated ∧
      updated.opening turns passed = some (replacement, branch) := by
  induction turns generalizing tree passed with
  | nil =>
    simp only [opening, Option.some.injEq, Prod.mk.injEq] at found
    exact ⟨replacement, by simp [graft], by simp [opening, found]⟩
  | cons turn turns ih =>
    cases tree with
    | leaf chunk => cases found
    | branch left right =>
      -- Only the child on the path is rebuilt, and the root of the other one is passed as before.
      cases turn with
      | false =>
        obtain ⟨inner, grafted, kept⟩ := ih found
        exact ⟨.branch inner right, by simp [graft, grafted], by simpa [opening] using kept⟩
      | true =>
        obtain ⟨inner, grafted, kept⟩ := ih found
        exact ⟨.branch left inner, by simp [graft, grafted], by simpa [opening] using kept⟩

variable {gindex : Gindex}

/-- The co-path of a node verifies the node against the root of its tree. -/
theorem verifyBranch_opening (nonzero : gindex ≠ 0)
    (found : tree.opening gindex.path [] = some (node, branch)) :
    branch.length = gindex.depth ∧ verifyBranch node.root branch gindex tree.root = true := by
  have sized : branch.length = gindex.depth := by simpa using length_opening found
  -- The check climbs the turns of the position, and above the root of the tree none are left.
  have climbed : climb node.root gindex.path.reverse branch = tree.root := by
    simpa [climb] using climb_opening found []
  refine ⟨sized, ?_⟩
  simp [verifyBranch, nonzero, sized, foldBranch_eq_climb node.root sized, climbed]

/-- Where there is a node at a position, its root and its co-path are the proof of it. -/
theorem prove_of_navigate (reached : tree.navigate gindex = .ok node) :
    ∃ branch, gindex ≠ 0 ∧ tree.opening gindex.path [] = some (node, branch) ∧
      tree.prove gindex = .ok ⟨gindex, node.root, branch⟩ := by
  obtain ⟨nonzero, found⟩ := atPosition_eq_ok.mp reached
  rw [← opening_fst tree gindex.path []] at found
  obtain ⟨⟨_, branch⟩, opened, rfl⟩ := Option.map_eq_some_iff.mp found
  refine ⟨branch, nonzero, opened, ?_⟩
  simp [prove, atPosition, nonzero, opened]

/-- Where there is no node at a position, there is no proof either, for the same reason. -/
theorem prove_of_fault {fault : ViewError} (failed : tree.navigate gindex = .error fault) :
    tree.prove gindex = .error fault := by
  rw [navigate, atPosition] at failed
  rw [prove, atPosition]
  split
  · rename_i zero
    simpa [zero] using failed
  · rename_i nonzero
    rw [if_neg nonzero, ← opening_fst tree gindex.path []] at failed
    -- Both walks end at the same leaf above the position.
    cases opened : tree.opening gindex.path [] with
    | none => simpa [opened] using failed
    | some found => simp [opened] at failed

end Tree

/--
A view has a proof for exactly the positions of its nodes, and fails elsewhere like the search for
the node. The proof of a node verifies against the root of the view, and its branch also verifies
any replacement of the node against the root of the updated tree.
-/
theorem View.prove_complete (view : View) (gindex : Gindex) (replacement : Tree) :
    ((∃ proof, view.prove gindex = .ok proof) ↔
      ∃ node, view.tree.navigate gindex = .ok node) ∧
    (∀ fault, view.prove gindex = .error fault ↔ view.tree.navigate gindex = .error fault) ∧
    ∀ node, view.tree.navigate gindex = .ok node →
      ∃ proof updated, view.prove gindex = .ok proof ∧
        proof.gindex = gindex ∧ proof.branch.length = gindex.depth ∧ proof.leaf = node.root ∧
        proof.verify view.root = true ∧
        view.tree.update gindex replacement = .ok updated ∧
        verifyBranch replacement.root proof.branch gindex updated.root = true := by
  cases reached : view.tree.navigate gindex with
  | error fault =>
    have failed : view.prove gindex = .error fault := Tree.prove_of_fault reached
    simp [failed]
  | ok node =>
    obtain ⟨branch, nonzero, opened, proved⟩ := Tree.prove_of_navigate reached
    have proved : view.prove gindex = .ok ⟨gindex, node.root, branch⟩ := proved
    refine ⟨by simp [proved], by simp [proved], ?_⟩
    intro _ same
    obtain rfl := Except.ok.inj same
    obtain ⟨sized, verified⟩ := Tree.verifyBranch_opening nonzero opened
    -- The updated tree has the same co-path beside the replacement.
    obtain ⟨updated, grafted, kept⟩ := Tree.graft_of_opening opened replacement
    obtain ⟨_, authenticated⟩ := Tree.verifyBranch_opening nonzero kept
    exact ⟨_, updated, proved, rfl, sized, rfl, verified,
      Tree.atPosition_eq_ok.mpr ⟨nonzero, grafted⟩, authenticated⟩

/-- The third of four numbers, to which a right turn and then a left one lead, and a new one. -/
theorem View.prove_complete_third :
    ∃ node proof updated,
      (View.ofDefault (.vector (.scalar .uint256) 4)).tree.navigate 6 = .ok node ∧
      (View.ofDefault (.vector (.scalar .uint256) 4)).prove 6 = .ok proof ∧
      proof.branch.length = 2 ∧
      (View.ofDefault (.vector (.scalar .uint256) 4)).tree.update 6 (Tree.leafOfBytes [7]) =
        .ok updated ∧
      verifyBranch (Tree.leafOfBytes [7]).root proof.branch 6 updated.root = true := by
  -- A number of 32 bytes is a leaf of its own, and all leaves of the default are zero.
  have reached : (View.ofDefault (.vector (.scalar .uint256) 4)).tree.navigate 6 =
      .ok (.leaf Chunk.zero) := rfl
  obtain ⟨_, _, complete⟩ := View.prove_complete (View.ofDefault (.vector (.scalar .uint256) 4)) 6
    (Tree.leafOfBytes [7])
  obtain ⟨proof, updated, proved, _, sized, _, _, placed, verified⟩ := complete _ reached
  exact ⟨_, proof, updated, reached, proved, sized, placed, verified⟩

end Ssz
