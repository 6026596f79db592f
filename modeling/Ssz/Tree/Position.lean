import Ssz.Error
import Ssz.Gindex
import Ssz.Tree.Basic

/-! Reading and replacing the subtree at a position; everything off the path is shared. -/

namespace Ssz.Tree

/-- The subtree reached by a list of turns, where true means right. -/
def descend : Tree → (turns : List Bool) → Option Tree
  | tree, [] => some tree
  | leaf _, _ :: _ => none
  | branch left right, turn :: turns =>
    if turn then descend right turns else descend left turns

/-- The tree with the subtree at the end of a list of turns replaced. -/
def graft : Tree → (turns : List Bool) → (subtree : Tree) → Option Tree
  | _, [], subtree => some subtree
  | leaf _, _ :: _, _ => none
  | branch left right, turn :: turns, subtree =>
    if turn then (graft right turns subtree).map (branch left ·)
    else (graft left turns subtree).map (branch · right)

/--
The subtree reached by a list of turns, and the roots beside the way to it, in front of those that
were passed before: the root next to the end comes first.
-/
def opening : Tree → (turns : List Bool) → (passed : List Chunk) → Option (Tree × List Chunk)
  | tree, [], passed => some (tree, passed)
  | leaf _, _ :: _, _ => none
  | branch left right, turn :: turns, passed =>
    if turn then opening right turns (left.root :: passed)
    else opening left turns (right.root :: passed)

/-- A result at a position, or the error that the position lies below the tree. -/
def atPosition {α : Type} (gindex : Gindex) (find : List Bool → Option α) : Except ViewError α :=
  if gindex = 0 then .error (.gindexOutOfBounds gindex)
  else
    match find gindex.path with
    | some found => .ok found
    | none => .error (.gindexOutOfBounds gindex)

/-- The subtree at a position. -/
def navigate (tree : Tree) (gindex : Gindex) : Except ViewError Tree :=
  atPosition gindex tree.descend

/-- The tree with the subtree at a position replaced. -/
def update (tree : Tree) (gindex : Gindex) (subtree : Tree) : Except ViewError Tree :=
  atPosition gindex fun turns => tree.graft turns subtree

/-- The chunk at a position, which must hold a leaf. -/
def chunkAt (tree : Tree) (gindex : Gindex) : Except ViewError Chunk := do
  match (← tree.navigate gindex).chunk? with
  | some chunk => return chunk
  | none => throw (.gindexOutOfBounds gindex)

end Ssz.Tree
