import Ssz.Error
import Ssz.Gindex
import Ssz.Tree.Basic

/-! Collecting the first nodes of a level, from left to right. -/

namespace Ssz.Tree

/-- The first `count` nodes at a depth below 64, from left to right. -/
def firstNodes : Tree → (depth : Nat) → (count : UInt64) → Except ViewError (List Tree)
  | tree, 0, count => .ok (if count = 0 then [] else [tree])
  | leaf _, depth + 1, count =>
    if count = 0 then .ok [] else .error (.gindexOutOfBounds (Gindex.ofDepthIndex (depth + 1) 0))
  | branch left right, depth + 1, count => do
    if count = 0 then return []
    -- The right half is entered only for nodes that the left one does not hold.
    let half := levelSize depth
    let front ← left.firstNodes depth (min count half)
    if count ≤ half then return front
    return front ++ (← right.firstNodes depth (count - half))

/-- The first `count` nodes at a depth, from left to right; words number only levels below 64. -/
def nodesAtDepth (tree : Tree) (depth : Nat) (count : UInt64) : Except ViewError (List Tree) :=
  if depth < 64 then tree.firstNodes depth count
  else if count = 0 then .ok []
  else .error (.limit (.levelTooDeep depth))

/-- The chunks of the first `count` leaves at a depth, from left to right. -/
def chunksAtDepth (tree : Tree) (depth : Nat) (count : UInt64) : Except ViewError (List Chunk) := do
  (← tree.nodesAtDepth depth count).mapM fun node =>
    match node.chunk? with
    | some chunk => .ok chunk
    | none => .error (.gindexOutOfBounds (Gindex.ofDepthIndex depth 0))

end Ssz.Tree
