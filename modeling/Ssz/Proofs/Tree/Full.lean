import Ssz.Proofs.Checked
import Ssz.Proofs.Chunk
import Ssz.Proofs.Gindex
import Ssz.Tree.Fill

/-! Full trees over a supply of nodes: every way of building a content tree gives one of them. -/

namespace Ssz.Tree

/-- The tree of a depth whose bottom positions hold the nodes of a supply. -/
def full : (depth : Nat) → (supply : Nat → Tree) → Tree
  | 0, supply => supply 0
  -- The right half reads the supply from half the width on.
  | depth + 1, supply => branch (full depth supply) (full depth fun i => supply (i + 2 ^ depth))

/-- Only the part of a supply that lies within the width of a full tree matters. -/
theorem full_congr {depth : Nat} {first second : Nat → Tree}
    (agree : ∀ i, i < 2 ^ depth → first i = second i) : full depth first = full depth second := by
  induction depth generalizing first second with
  | zero => exact agree 0 (by decide)
  | succ depth ih =>
    -- Both halves read positions within the width, the right one from half the width on.
    rw [full, full, ih fun i within => agree i (by rw [Nat.pow_succ]; omega),
      ih fun i within => agree (i + 2 ^ depth) (by rw [Nat.pow_succ]; omega)]

/-- Copies of one node make the full tree of a constant supply. -/
theorem copies_eq_full (tree : Tree) (depth : Nat) :
    copies tree depth = full depth fun _ => tree := by
  -- A supply that is constant is the same in both halves.
  induction depth with
  | zero => rfl
  | succ depth ih => rw [copies, ih, twice, full]

/-- The zero subtree of depth zero is the zero leaf. -/
@[simp] theorem zero_zero : zero 0 = leaf Chunk.zero := by
  rw [zero_eq, copies]

/-- A zero subtree is full of zero leaves. -/
theorem zero_eq_full (depth : Nat) : zero depth = full depth fun _ => leaf Chunk.zero := by
  rw [zero_eq, copies_eq_full]

/-- A zero subtree is a branch over two zero subtrees of the depth below. -/
theorem zero_succ (depth : Nat) : zero (depth + 1) = branch (zero depth) (zero depth) := by
  rw [zero_eq, zero_eq, copies, twice]

/-- Pairing up neighbours at the bottom gives the full tree one level deeper. -/
theorem full_pairs (depth : Nat) (supply : Nat → Tree) :
    (full depth fun i => branch (supply (2 * i)) (supply (2 * i + 1))) =
      full (depth + 1) supply := by
  induction depth generalizing supply with
  | zero => rfl
  | succ depth ih =>
    rw [full, ih supply]
    show _ = branch (full (depth + 1) supply)
      (full (depth + 1) fun i => supply (i + 2 ^ (depth + 1)))
    -- The right half pairs up the supply from half the width on.
    rw [← ih fun i => supply (i + 2 ^ (depth + 1))]
    congr 1
    apply full_congr
    intro i _
    have even : 2 * (i + 2 ^ depth) = 2 * i + 2 ^ (depth + 1) := by rw [Nat.pow_succ]; omega
    have odd : 2 * (i + 2 ^ depth) + 1 = 2 * i + 1 + 2 ^ (depth + 1) := by
      rw [Nat.pow_succ]
      omega
    rw [odd, even]

/-- One level up, each position holds a branch over two positions of the level below. -/
theorem getD_pairUp (padding : Tree) (layer : List Tree) (i : Nat) :
    (pairUp padding layer).getD i (branch padding padding) =
      branch (layer.getD (2 * i) padding) (layer.getD (2 * i + 1) padding) := by
  -- The induction takes two nodes at a time, as pairing does; the last may be alone.
  induction layer using pairUp.induct generalizing i with
  | case1 left right rest ih =>
    cases i with
    | zero => simp [pairUp]
    | succ i =>
      have even : 2 * (i + 1) = 2 * i + 1 + 1 := by omega
      rw [pairUp, List.getD_cons_succ, ih i, even]
      simp only [List.getD_cons_succ]
  | case2 last =>
    cases i with
    | zero => simp [pairUp]
    | succ i => simp [pairUp, show 2 * (i + 1) = 2 * i + 1 + 1 by omega]
  | case3 => simp [pairUp]

/-- Raising a layer gives the full tree of its nodes, padded with zero subtrees. -/
theorem raise_eq_full (level : Nat) (layer : List Tree) (remaining : Nat) :
    raise level layer remaining = full remaining fun i => layer.getD i (zero level) := by
  induction remaining generalizing level layer with
  | zero => cases layer <;> rfl
  | succ remaining ih =>
    -- Pairing up a layer is what one level of a full tree does.
    rw [raise, ih, zero_succ, ← full_pairs]
    simp only [getD_pairUp]

/-- The full tree of a depth with the given nodes on the left and zero leaves after them. -/
def ofNodes (depth : Nat) (nodes : List Tree) : Tree :=
  full depth fun i => nodes.getD i (leaf Chunk.zero)

/-- The full tree of a depth whose leaves hold the given bytes, followed by zeros. -/
def ofBytes (depth : Nat) (bytes : Bytes) : Tree :=
  full depth fun i => leaf (Chunk.window bytes i)

/-- Without nodes there are only zero leaves. -/
theorem ofNodes_nil (depth : Nat) : ofNodes depth [] = zero depth := by
  simp [ofNodes, zero_eq_full]

/-- Filling succeeds with the full tree whenever the nodes fit. -/
theorem fill_eq_ok {nodes : List Tree} {depth : Nat} (shallow : depth < 64)
    (fits : nodes.length ≤ 2 ^ depth) : fill nodes depth = .ok (ofNodes depth nodes) := by
  rw [fill, capacity, if_pos shallow, Nat.one_shiftLeft, if_neg (Nat.not_lt.mpr fits)]
  cases nodes with
  | nil => simp [zero?, shallow, ofNodes_nil, Except.mapError]
  | cons node rest =>
    -- No padding of depth 64 is needed, since the tree is shallower than that.
    rw [if_neg (by simp), if_neg (by omega), raise_eq_full, ofNodes, zero_zero]

/-- Filling refuses nodes that do not fit, with their number and that of the positions. -/
theorem fill_of_lt {nodes : List Tree} {depth : Nat} (shallow : depth < 64)
    (wide : 2 ^ depth < nodes.length) :
    fill nodes depth = .error (.indexOutOfBounds nodes.length (2 ^ depth)) := by
  rw [fill, capacity, if_pos shallow, Nat.one_shiftLeft, if_pos wide]

/-- Filling gives the full tree of the nodes exactly when they fit. -/
theorem fill_eq_ok_iff {nodes : List Tree} {depth : Nat} (shallow : depth < 64) {tree : Tree} :
    fill nodes depth = .ok tree ↔ nodes.length ≤ 2 ^ depth ∧ ofNodes depth nodes = tree := by
  rcases Nat.lt_or_ge (2 ^ depth) nodes.length with wide | fits
  · simp [fill_of_lt shallow wide, Nat.not_le.mpr wide]
  · simp [fill_eq_ok shallow fits, fits]

/-- Leaves made of packed bytes fill the tree of those bytes. -/
theorem ofNodes_packBytes (depth : Nat) (bytes : Bytes) :
    ofNodes depth ((packBytes bytes).map leaf) = ofBytes depth bytes := by
  -- Past the last chunk both supplies hold the zero leaf.
  apply full_congr
  intro i _
  rw [← getD_packBytes, List.getD_eq_getElem?_getD, List.getD_eq_getElem?_getD, List.getElem?_map]
  cases (packBytes bytes)[i]? <;> rfl

/-- The list of doublings ends with the full tree of copies. -/
theorem reverse_doublings (tree : Tree) (count : Nat) :
    (doublings tree (count + 1)).reverse = copies tree count :: (doublings tree count).reverse := by
  -- Doubling first or last makes the same copies.
  induction count generalizing tree with
  | zero => rfl
  | succ count ih => rw [doublings, List.reverse_cons, ih, copies_twice, doublings]; simp

/-- There are as many doublings as asked for. -/
@[simp] theorem length_doublings (tree : Tree) (count : Nat) :
    (doublings tree count).length = count := by
  induction count generalizing tree with
  | zero => rfl
  | succ count ih => rw [doublings, List.length_cons, ih]

/-- Building by doubling gives the full tree with that many copies on the left. -/
theorem replicateFrom_doublings (tree : Tree) (depth : Nat) (shallow : depth < 64)
    (count : UInt64) (fits : count.toNat ≤ 2 ^ depth) :
    replicateFrom (doublings tree (depth + 1)).reverse count =
      full depth fun i => if i < count.toNat then tree else leaf Chunk.zero := by
  induction depth generalizing count with
  | zero =>
    rw [reverse_doublings]
    by_cases none : count = 0
    · simp [doublings, replicateFrom, none, full]
    · have positive := Nat.pos_of_ne_zero (toNat_ne_zero none)
      simp [doublings, replicateFrom, none, full, positive, copies]
  | succ depth ih =>
    have shallower : depth < 64 := by omega
    have half := toNat_levelSize shallower
    have whole := toNat_levelSize shallow
    rw [Nat.pow_succ] at fits whole
    rw [reverse_doublings, reverse_doublings, replicateFrom, ← reverse_doublings]
    simp only [List.length_reverse, length_doublings]
    -- The copies are none, all, within the left half, or beyond it.
    split
    · rename_i none
      simp [zero_eq_full, none]
    split
    · rename_i all
      rw [copies_eq_full]
      apply full_congr
      intro i within
      rw [Nat.pow_succ] at within
      simp [all, whole, within]
    split
    · -- The right half is the zero subtree, as the copies end before it.
      rename_i left
      have left : count.toNat ≤ 2 ^ depth := by simpa [UInt64.le_iff_toNat_le, half] using left
      rw [ih shallower count left, zero_eq_full, full]
      congr 1
      apply full_congr
      intro i _
      simp [show ¬ i + 2 ^ depth < count.toNat by omega]
    · -- The left half is full, and the right half has what is left over.
      rename_i right
      have right : 2 ^ depth < count.toNat := by simpa [UInt64.le_iff_toNat_le, half] using right
      have rest : (count - levelSize depth).toNat = count.toNat - 2 ^ depth := by
        rw [UInt64.toNat_sub_of_le, half]
        simpa [UInt64.le_iff_toNat_le, half] using Nat.le_of_lt right
      rw [ih shallower _ (by omega), copies_eq_full, full]
      congr 1
      · apply full_congr
        intro i within
        simp [show i < count.toNat by omega]
      · apply full_congr
        intro i _
        simp [rest, show i < count.toNat - 2 ^ depth ↔ i + 2 ^ depth < count.toNat by omega]

/-- Replicating succeeds with the full tree of copies whenever they fit. -/
theorem replicate_eq_ok (tree : Tree) {count : UInt64} {depth : Nat} (shallow : depth < 64)
    (fits : count.toNat ≤ 2 ^ depth) :
    replicate tree count depth = .ok (ofNodes depth (List.replicate count.toNat tree)) := by
  rw [replicate, Nat.one_shiftLeft, if_neg (by omega), if_neg (by omega),
    replicateFrom_doublings tree depth shallow count fits]
  congr 1
  -- A list of copies reads as a node as far as it goes, and as zero after that.
  apply full_congr
  intro i _
  by_cases within : i < count.toNat <;>
    simp [List.getD_eq_getElem?_getD, within]

end Ssz.Tree
