import Ssz.Error
import Ssz.Gindex
import Ssz.Tree.Basic

/-! Trees of a fixed depth: given nodes on the left, zero subtrees everywhere else. -/

namespace Ssz.Tree

/-- The number of positions at a depth, where deep levels count as one less than 2 to the 64th. -/
def capacity (depth : Nat) : Nat :=
  if depth < 64 then 1 <<< depth else UInt64.size - 1

/-- A leaf of bytes that fit in a chunk, left-aligned and padded with zeros. -/
def leafOfBytes? (bytes : Bytes) : Except LimitError Tree :=
  if bytes.length ≤ 32 then .ok (leafOfBytes bytes) else .error (.leafTooLong bytes.length)

/-- The zero subtree of a depth, within the depths that have one. -/
def zero? (depth : Nat) : Except LimitError Tree :=
  if depth < 64 then .ok (zero depth) else .error (.zeroTooDeep depth)

/-- One level up: neighbours become siblings, and a last odd node gets a padding sibling. -/
def pairUp (padding : Tree) : List Tree → List Tree
  | left :: right :: rest => branch left right :: pairUp padding rest
  | [last] => [branch last padding]
  | [] => []

/-- The tree over a nonempty layer that stands `level` levels above the bottom. -/
def raise (level : Nat) (layer : List Tree) : (remaining : Nat) → Tree
  | 0 => layer.headD (zero level)
  | remaining + 1 => raise (level + 1) (pairUp (zero level) layer) remaining

/-- The tree of a depth whose leftmost positions hold the given nodes. -/
def fill (nodes : List Tree) (depth : Nat) : Except ViewError Tree :=
  if capacity depth < nodes.length then
    .error (.indexOutOfBounds nodes.length (capacity depth))
  else if nodes.isEmpty then
    (zero? depth).mapError .limit
  else if 64 < depth then
    -- A single node on such a level needs a zero sibling of depth 64 on its way up.
    .error (.limit (.zeroTooDeep 64))
  else
    .ok (raise 0 nodes depth)

/-- The tree over `count` copies, given the full trees of copies from the deepest to the node. -/
def replicateFrom : (full : List Tree) → (count : UInt64) → Tree
  | [], _ => zero 0
  | [node], count => if count = 0 then zero 0 else node
  | whole :: half :: smaller, count =>
    -- The copies go left first, and what is left of the level is zero.
    let below := smaller.length
    if count = 0 then zero (below + 1)
    else if count = levelSize (below + 1) then whole
    else if count ≤ levelSize below then
      branch (replicateFrom (half :: smaller) count) (zero below)
    else
      branch half (replicateFrom (half :: smaller) (count - levelSize below))

/-- The tree of a depth with `count` copies of a node on the left, built by doubling. -/
def replicate (node : Tree) (count : UInt64) (depth : Nat) : Except ViewError Tree :=
  -- The number of copies in a full tree has to fit in a word, unless none of them is asked for.
  if 64 ≤ depth then
    .error (.limit (if count = 0 then .zeroTooDeep depth else .levelTooDeep depth))
  else if 1 <<< depth < count.toNat then .error (.indexOutOfBounds count.toNat (1 <<< depth))
  else .ok (replicateFrom (doublings node (depth + 1)).reverse count)

end Ssz.Tree
