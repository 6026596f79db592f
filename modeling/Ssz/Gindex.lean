/-! Generalized indices: one is the root, and the children of `g` are `2 * g` and `2 * g + 1`. -/

namespace Ssz

/-- A position in a binary tree as a 64-bit word; zero names no position. -/
abbrev Gindex := UInt64

/-- The number of positions on the level at a depth below 64. -/
def levelSize (depth : Nat) : UInt64 :=
  1 <<< UInt64.ofNat depth

namespace Gindex

/-- The position of the root. -/
def root : Gindex := 1

/-- The position numbered `index` from the left on the level at a depth below 64. -/
def ofDepthIndex (depth : Nat) (index : UInt64) : Gindex :=
  levelSize depth ||| index

/-- The position numbered `index` on the level at `depth`, where words reach that deep. -/
def ofDepthIndex? (depth : Nat) (index : UInt64) : Option Gindex :=
  if depth < 64 then some (ofDepthIndex depth index) else none

/-- The number of edges from the root; zero for the index that names no position. -/
def depth (gindex : Gindex) : Nat :=
  gindex.toNat.log2

/-- The number of the position within its level, counting from the left. -/
def indexAtDepth (gindex : Gindex) : UInt64 :=
  gindex &&& ~~~levelSize gindex.depth

/-- The position reached by the path `child` from the position `base`, when it fits in a word. -/
def concat (base child : Gindex) : Option Gindex :=
  if base = 0 ∨ child = 0 then none
  else if 63 < base.depth + child.depth then none
  else some ((base <<< UInt64.ofNat child.depth) ||| child.indexAtDepth)

/-- The position one level up. -/
def parent (gindex : Gindex) : Gindex :=
  gindex >>> 1

/-- The other child of the same parent. -/
def sibling (gindex : Gindex) : Gindex :=
  gindex ^^^ 1

/-- Whether the position is a left child; the root counts as a right one. -/
def isLeft (gindex : Gindex) : Bool :=
  gindex &&& 1 == 0

/-- The turns from the root down to a position; true means right. -/
def path (gindex : Gindex) : List Bool :=
  -- The bits below the leading one, from the most significant.
  (List.range gindex.depth).reverse.map gindex.toNat.testBit

end Gindex

end Ssz
