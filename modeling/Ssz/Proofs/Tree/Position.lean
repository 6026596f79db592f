import Ssz.Proofs.Bits
import Ssz.Proofs.Overwrite
import Ssz.Proofs.Tree.Full
import Ssz.Tree.Position

/-! Reading and writing at the bottom positions of full trees, also below the left child. -/

namespace Ssz.Tree

/-- The turns of a number lead to the node with that number. -/
theorem descend_full (depth : Nat) (supply : Nat → Tree) (i : Nat) :
    (full depth supply).descend (turnsTo depth i) = some (supply (i % 2 ^ depth)) := by
  induction depth generalizing supply with
  | zero => simp [full, turnsTo, descend, Nat.mod_one]
  | succ depth ih =>
    -- The highest bit of the number chooses the half, the lower bits the node in it.
    rw [full, turnsTo_succ, descend, ih, ih, Nat.mod_pow_succ, ← Nat.toNat_testBit]
    cases i.testBit depth <;> simp

/-- Grafting at the turns of a number replaces the node with that number. -/
theorem graft_full (depth : Nat) (supply : Nat → Tree) (i : Nat) (subtree : Tree) :
    (full depth supply).graft (turnsTo depth i) subtree =
      some (full depth fun j => if j = i % 2 ^ depth then subtree else supply j) := by
  induction depth generalizing supply with
  | zero => simp [full, turnsTo, graft, Nat.mod_one]
  | succ depth ih =>
    have small : i % 2 ^ depth < 2 ^ depth := Nat.mod_lt _ (Nat.two_pow_pos depth)
    rw [full, turnsTo_succ, graft, ih, ih, Nat.mod_pow_succ, ← Nat.toNat_testBit]
    -- The half that holds the position is rebuilt, and the other one is kept.
    cases i.testBit depth with
    | true =>
      simp only [if_true, Option.map_some, full, Bool.toNat_true, Nat.mul_one]
      congr 2
      · apply full_congr
        intro j within
        rw [if_neg (by omega)]
      · apply full_congr
        intro j _
        simp
    | false =>
      simp only [Bool.false_eq_true, if_false, Option.map_some, full, Bool.toNat_false,
        Nat.mul_zero, Nat.add_zero]
      congr 2
      apply full_congr
      intro j _
      rw [if_neg (by omega)]

/-- The chunk at the root of a leaf is the leaf's own. -/
theorem chunkAt_root (chunk : Chunk) : (leaf chunk).chunkAt Gindex.root = .ok chunk := rfl

section Levels

variable {depth : Nat} {index : UInt64}

/-- Navigating to a position of the bottom level finds the node with its number. -/
theorem navigate_full (shallow : depth < 64) (within : index.toNat < 2 ^ depth)
    (supply : Nat → Tree) :
    (full depth supply).navigate (Gindex.ofDepthIndex depth index) =
      .ok (supply index.toNat) := by
  rw [navigate, atPosition, if_neg (Gindex.ofDepthIndex_ne_zero shallow within),
    Gindex.path_ofDepthIndex shallow within, descend_full, Nat.mod_eq_of_lt within]

/-- Updating a position of the bottom level replaces the node with its number. -/
theorem update_full (shallow : depth < 64) (within : index.toNat < 2 ^ depth)
    (supply : Nat → Tree) (subtree : Tree) :
    (full depth supply).update (Gindex.ofDepthIndex depth index) subtree =
      .ok (full depth fun i => if i = index.toNat then subtree else supply i) := by
  rw [update, atPosition, if_neg (Gindex.ofDepthIndex_ne_zero shallow within),
    Gindex.path_ofDepthIndex shallow within, graft_full, Nat.mod_eq_of_lt within]

/-- A position one level deeper, with a number of the level above, lies below the left child. -/
theorem navigate_left (shallow : depth + 1 < 64) (within : index.toNat < 2 ^ depth)
    {left subtree : Tree} (right : Tree)
    (found : left.navigate (Gindex.ofDepthIndex depth index) = .ok subtree) :
    (branch left right).navigate (Gindex.ofDepthIndex (depth + 1) index) = .ok subtree := by
  -- The path on the level below is the same one after a first turn to the left.
  have deeper : index.toNat < 2 ^ (depth + 1) := by rw [Nat.pow_succ]; omega
  have shallower : depth < 64 := by omega
  rw [navigate, atPosition, if_neg (Gindex.ofDepthIndex_ne_zero shallower within),
    Gindex.path_ofDepthIndex shallower within] at found
  rw [navigate, atPosition, if_neg (Gindex.ofDepthIndex_ne_zero shallow deeper),
    Gindex.path_ofDepthIndex shallow deeper, turnsTo_succ_of_lt within]
  simp only [descend, Bool.false_eq_true, if_false]
  cases reached : left.descend (turnsTo depth index.toNat) <;> simp_all

/-- Updating below the left child rebuilds that child and keeps the right one. -/
theorem update_left (shallow : depth + 1 < 64) (within : index.toNat < 2 ^ depth)
    {left updated subtree : Tree} (right : Tree)
    (done : left.update (Gindex.ofDepthIndex depth index) subtree = .ok updated) :
    (branch left right).update (Gindex.ofDepthIndex (depth + 1) index) subtree =
      .ok (branch updated right) := by
  -- The path on the level below is the same one after a first turn to the left.
  have deeper : index.toNat < 2 ^ (depth + 1) := by rw [Nat.pow_succ]; omega
  have shallower : depth < 64 := by omega
  rw [update, atPosition, if_neg (Gindex.ofDepthIndex_ne_zero shallower within),
    Gindex.path_ofDepthIndex shallower within] at done
  rw [update, atPosition, if_neg (Gindex.ofDepthIndex_ne_zero shallow deeper),
    Gindex.path_ofDepthIndex shallow deeper, turnsTo_succ_of_lt within]
  simp only [graft, Bool.false_eq_true, if_false]
  cases grafted : left.graft (turnsTo depth index.toNat) subtree <;> simp_all

/-- A chunk found below the left child is one of the left child. -/
theorem chunkAt_left (shallow : depth + 1 < 64) (within : index.toNat < 2 ^ depth)
    {left : Tree} {chunk : Chunk} (right : Tree)
    (found : left.chunkAt (Gindex.ofDepthIndex depth index) = .ok chunk) :
    (branch left right).chunkAt (Gindex.ofDepthIndex (depth + 1) index) = .ok chunk := by
  -- Only the way to the node is longer; what it holds is the same.
  obtain ⟨node, reached, holds⟩ := bind_eq_ok.mp found
  rw [chunkAt, navigate_left shallow within right reached, ok_bind]
  cases node with
  | leaf own => exact holds
  | branch => cases holds

/-- The nodes of a full tree are found at their numbers. -/
theorem navigate_ofNodes (shallow : depth < 64) (within : index.toNat < 2 ^ depth)
    {nodes : List Tree} {node : Tree} (found : nodes[index.toNat]? = some node) :
    (ofNodes depth nodes).navigate (Gindex.ofDepthIndex depth index) = .ok node := by
  rw [ofNodes, navigate_full shallow within, List.getD_eq_getElem?_getD, found, Option.getD_some]

/-- Updating a position in use, or the one after the last, overwrites the node there. -/
theorem update_ofNodes (shallow : depth < 64) (within : index.toNat < 2 ^ depth)
    {nodes : List Tree} (reached : index.toNat ≤ nodes.length) (node : Tree) :
    (ofNodes depth nodes).update (Gindex.ofDepthIndex depth index) node =
      .ok (ofNodes depth (overwrite nodes index.toNat node)) := by
  rw [ofNodes, update_full shallow within]
  congr 1
  -- Writing after the last node turns one padding leaf into a node.
  apply full_congr
  intro i _
  rw [getD_overwrite node _ reached]

/-- The chunks of a byte string are found at their numbers. -/
theorem chunkAt_ofBytes (shallow : depth < 64) (within : index.toNat < 2 ^ depth)
    (bytes : Bytes) :
    (ofBytes depth bytes).chunkAt (Gindex.ofDepthIndex depth index) =
      .ok (Chunk.window bytes index.toNat) := by
  rw [chunkAt, ofBytes, navigate_full shallow within]
  rfl

/-- Updating one leaf gives the tree of the byte string whose windows are the new chunks. -/
theorem update_ofBytes (shallow : depth < 64) (within : index.toNat < 2 ^ depth)
    {bytes updated : Bytes} {chunk : Chunk}
    (here : Chunk.window updated index.toNat = chunk)
    (elsewhere : ∀ i, i ≠ index.toNat → Chunk.window updated i = Chunk.window bytes i) :
    (ofBytes depth bytes).update (Gindex.ofDepthIndex depth index) (leaf chunk) =
      .ok (ofBytes depth updated) := by
  rw [ofBytes, update_full shallow within]
  congr 1
  apply full_congr
  intro i _
  -- The windows of the two byte strings differ at the position updated at most.
  by_cases same : i = index.toNat
  · rw [if_pos same, same, here]
  · rw [if_neg same, elsewhere i same]

end Levels

end Ssz.Tree
