import Ssz.Config
import Ssz.Tree.Fill

/-! Roots computed layer by layer from chunks, without building a tree. -/

namespace Ssz

/-- The hashes of neighbouring chunks, from left to right. -/
def hashLayer : List Chunk → List Chunk
  | left :: right :: rest => hashPair left right :: hashLayer rest
  | _ => []

/-- A task for each pair of neighbouring chunks, which computes their hash. -/
def layerTasks : List Chunk → List (Task Chunk)
  | left :: right :: rest => Task.spawn (fun _ => hashPair left right) :: layerTasks rest
  | _ => []

/-- The hashes of neighbouring chunks, each one computed by a task of its own. -/
def hashLayerTasks (layer : List Chunk) : List Chunk :=
  -- All tasks are started before the first one is waited for.
  (layerTasks layer).map Task.get

/-- A layer with an even number of chunks, where an odd one is completed by a padding chunk. -/
def evenLayer (padding : Chunk) (layer : List Chunk) : List Chunk :=
  if layer.length % 2 = 1 then layer ++ [padding] else layer

/-- The root over a nonempty layer that stands `level` levels above the chunks. -/
def raiseLayer (config : HashingConfig) (level : Nat) (layer : List Chunk) :
    (remaining : Nat) → Chunk
  | 0 => layer.headD Chunk.zero
  | remaining + 1 =>
    let even := evenLayer (Tree.zero level).root layer
    let next :=
      if config.parallelLayerLength ≤ even.length then hashLayerTasks even else hashLayer even
    raiseLayer config (level + 1) next remaining

/-- The root of a zero subtree. -/
def zeroHash? (depth : Nat) : Except LimitError Chunk :=
  (Tree.zero? depth).map Tree.root

/-- The root of the tree of a depth whose leftmost leaves are the given chunks. -/
def merkleize (config : HashingConfig) (chunks : List Chunk) (depth : Nat) :
    Except LimitError Chunk :=
  if depth < 64 ∧ 1 <<< depth < chunks.length then .error (.tooManyChunks chunks.length depth)
  else if chunks.isEmpty then zeroHash? depth
  else if 64 < depth then
    -- The last chunk left over on such a level needs a zero sibling of depth 64.
    .error (.zeroTooDeep 64)
  else .ok (raiseLayer config 0 chunks depth)

/-- The root of a list: the root of its content hashed with its length. -/
def mixInLength (content : Chunk) (length : UInt64) : Chunk :=
  hashPair content (Chunk.ofLength length)

/-- The root of a union: the root of its variant hashed with its selector. -/
def mixInSelector (variant : Chunk) (selector : UInt32) : Chunk :=
  hashPair variant (Chunk.ofSelector selector)

end Ssz
