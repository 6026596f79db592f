import Ssz.Error
import Ssz.Gindex
import Ssz.Tree.Basic

/-! Replacing several nodes of one level in a single pass over the tree. -/

namespace Ssz.Tree

/-- Index and node pairs of equal index reduced to the last one, in a list sorted by index. -/
def latest : List (UInt64 × Tree) → List (UInt64 × Tree)
  | first :: second :: rest =>
    if first.1 = second.1 then latest (second :: rest) else first :: latest (second :: rest)
  | short => short

/-- The tree with replacements put in, whose indices count from `base` at the level below. -/
def rebuild : Tree → (depth : Nat) → (base : UInt64) → List (UInt64 × Tree) → Except ViewError Tree
  | tree, _, _, [] => .ok tree
  | tree, 0, _, updates =>
    -- Distinct indices leave at most one replacement for a single position.
    match updates with
    | [(_, replacement)] => .ok replacement
    | [] => .ok tree
    | _ => .error (.gindexOutOfBounds (Gindex.ofDepthIndex 0 0))
  | leaf _, depth + 1, _, _ => .error (.gindexOutOfBounds (Gindex.ofDepthIndex (depth + 1) 0))
  | branch left right, depth + 1, base, updates => do
    let middle := base + levelSize depth
    let below := updates.takeWhile fun update => update.1 < middle
    let above := updates.dropWhile fun update => update.1 < middle
    return branch (← left.rebuild depth base below) (← right.rebuild depth middle above)

/-- The tree with nodes at one depth replaced; of pairs with the same index the last one wins. -/
def updateMany (tree : Tree) (depth : Nat) (updates : List (UInt64 × Tree)) :
    Except ViewError Tree :=
  if 64 ≤ depth then .error (.gindexOutOfBounds 0)
  else
    match updates.find? fun update => 1 <<< depth ≤ update.1.toNat with
    | some (index, _) => .error (.indexOutOfBounds index.toNat (1 <<< depth))
    | none =>
      -- The sort is stable, so pairs of equal index stay in the order they were given.
      tree.rebuild depth 0 (latest (updates.mergeSort fun first second => first.1 ≤ second.1))

end Ssz.Tree
