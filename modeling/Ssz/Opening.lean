import Ssz.Tree.Position

/-! Openings: a node's root with the roots beside its path, checked against the root of the tree. -/

namespace Ssz

/-- The root of the node at a position, and its co-path with the node's own sibling first. -/
structure MerkleProof where
  gindex : Gindex
  leaf : Chunk
  branch : List Chunk
  deriving DecidableEq

/-- The root recomputed from a node at a position and the siblings on its way up. -/
def foldBranch (position : Gindex) (current : Chunk) : (branch : List Chunk) → Chunk
  | [] => current
  | sibling :: rest =>
    let above := if position.isLeft then hashPair current sibling else hashPair sibling current
    foldBranch position.parent above rest

/-- Whether a node and its co-path lead to a root; the co-path must have the position's depth. -/
def verifyBranch (leaf : Chunk) (branch : List Chunk) (gindex : Gindex) (root : Chunk) : Bool :=
  gindex ≠ 0 && branch.length == gindex.depth && foldBranch gindex leaf branch == root

/-- Whether a proof leads to a root. -/
def MerkleProof.verify (proof : MerkleProof) (root : Chunk) : Bool :=
  verifyBranch proof.leaf proof.branch proof.gindex root

/-- The proof of the node at a position, whose co-path is gathered on the way down to it. -/
def Tree.prove (tree : Tree) (gindex : Gindex) : Except ViewError MerkleProof := do
  let (node, siblings) ← Tree.atPosition gindex fun turns => tree.opening turns []
  return { gindex, leaf := node.root, branch := siblings }

end Ssz
