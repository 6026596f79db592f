import Ssz.Hash.Sha256

/-! Persistent binary trees of chunks; each node keeps its root and its height. -/

namespace Ssz

/-- A binary tree whose leaves are chunks. -/
inductive Tree where
  | leaf (chunk : Chunk)
  | branch (left right : Tree)
with
  /-- The Merkle root: a leaf's own chunk, a branch's hash of its children's roots. -/
  @[computed_field] root : Tree → Chunk
    | .leaf chunk => chunk
    | .branch left right => hashPair left.root right.root
  /-- The distance to the deepest leaf, where 255 stands for any larger distance. -/
  @[computed_field] height : Tree → Nat
    | .leaf _ => 0
    | .branch left right => min 255 (max left.height right.height + 1)

namespace Tree

/-- A leaf of up to thirty-two bytes, left-aligned and padded with zeros. -/
def leafOfBytes (bytes : Bytes) : Tree :=
  leaf (Chunk.padded bytes)

/-- Whether a tree is a single leaf. -/
def isLeaf : Tree → Bool
  | leaf _ => true
  | branch _ _ => false

/-- The chunk of a leaf. -/
def chunk? : Tree → Option Chunk
  | leaf chunk => some chunk
  | branch _ _ => none

/-- The two subtrees of a branch. -/
def children? : Tree → Option (Tree × Tree)
  | leaf _ => none
  | branch left right => some (left, right)

/-- Whether two trees commit to the same contents, judged by their roots. -/
def sameRoot (first second : Tree) : Bool :=
  first.root == second.root

/-- A branch over two copies of a tree. -/
def twice (tree : Tree) : Tree :=
  branch tree tree

/-- The full tree of a depth whose bottom positions all hold copies of one tree. -/
def copies (tree : Tree) : (depth : Nat) → Tree
  | 0 => tree
  | depth + 1 => (copies tree depth).twice

/-- Full trees of copies of one tree, of the depths below `count`, shallowest first. -/
def doublings (tree : Tree) : (count : Nat) → List Tree
  | 0 => []
  | count + 1 => tree :: doublings tree.twice count

/-- The zero subtrees of the depths below 64, each sharing the one before it. -/
def zeroTable : Array Tree :=
  (doublings (leaf Chunk.zero) 64).toArray

/-- The subtree of a depth whose leaves are all zero. -/
def zero (depth : Nat) : Tree :=
  -- Depths below 64 come from the table, so that their roots are hashed once.
  match zeroTable[depth]? with
  | some tree => tree
  | none => copies (leaf Chunk.zero) depth

/-- How a tree is written: a leaf with its chunk, a branch with its height and perhaps its root. -/
def describe (tree : Tree) (withRoot : Bool) : String :=
  match tree with
  | leaf chunk => s!"Leaf(0x{chunk.toHex})"
  | branch _ _ =>
    if withRoot then s!"Branch(height={tree.height}, root=0x{tree.root.toHex})"
    else s!"Branch(height={tree.height})"

/-- Doubling first and copying afterwards builds the same full tree, one level deeper. -/
theorem copies_twice (tree : Tree) (depth : Nat) :
    copies tree.twice depth = copies tree (depth + 1) := by
  -- Both sides double the same tree once more at every level.
  induction depth with
  | zero => rfl
  | succ depth ih => rw [copies, ih]; rfl

/-- The table of doublings holds at each position the full tree of that depth. -/
theorem doublings_getElem? (tree : Tree) (count depth : Nat) :
    (doublings tree count)[depth]? = if depth < count then some (copies tree depth) else none := by
  -- The table of a pair of copies is the table of one copy from its second entry on.
  induction count generalizing tree depth with
  | zero => simp [doublings]
  | succ count ih =>
    cases depth with
    | zero => simp [doublings, copies]
    | succ depth => simp [doublings, ih, copies_twice]

/-- A zero subtree is the full tree of copies of the zero leaf, wherever it is taken from. -/
theorem zero_eq (depth : Nat) : zero depth = copies (leaf Chunk.zero) depth := by
  -- Within the table the entry is that tree, and beyond it the tree is built anew.
  unfold zero zeroTable
  rw [List.getElem?_toArray, doublings_getElem?]
  split <;> simp_all

end Tree

end Ssz
