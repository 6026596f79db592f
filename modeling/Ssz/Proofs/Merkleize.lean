import Ssz.Merkleize
import Ssz.Proofs.Tree.Full
import Ssz.Value.Root

/-! Layered root computation: it gives the roots of the full trees that it never builds. -/

namespace Ssz

/-- Hashing a layer by tasks gives the same chunks as hashing it in sequence. -/
theorem hashLayerTasks_eq (layer : List Chunk) : hashLayerTasks layer = hashLayer layer := by
  -- Each task computes the hash of one pair, and they are waited for from left to right.
  induction layer using hashLayer.induct with
  | case1 left right rest ih =>
    rw [hashLayer, ← ih]
    rfl
  | case2 layer short =>
    rw [hashLayer]
    · rw [hashLayerTasks, layerTasks]
      · rfl
      · exact short
    · exact short

/-- A layer is hashed by tasks from a power of two on, and never where the height is 64 or more. -/
theorem HashingConfig.parallelLayerLength_le_iff (config : HashingConfig) {count : Nat}
    (small : count < UInt64.size - 1) :
    config.parallelLayerLength ≤ count ↔
      config.parallelMinHeight.toNat < 64 ∧ 2 ^ config.parallelMinHeight.toNat ≤ count := by
  rw [parallelLayerLength, Nat.one_shiftLeft]
  -- From height 64 up the threshold is the greatest word, which the count stays below.
  split
  · simp only [*, true_and]
  · simp only [*, false_and, iff_false]
    omega

/-- The sequential configuration hashes no layer by tasks, except one that memory cannot hold. -/
theorem HashingConfig.lt_parallelLayerLength_sequential {count : Nat}
    (small : count < UInt64.size - 1) : count < sequential.parallelLayerLength := by
  apply Nat.lt_of_not_le
  intro tasks
  exact absurd ((parallelLayerLength_le_iff sequential small).mp tasks).1 (by decide)

/-- One more pair in front of a layer changes nothing in how its end is completed. -/
theorem hashLayer_evenLayer_cons (padding left right : Chunk) (rest : List Chunk) :
    hashLayer (evenLayer padding (left :: right :: rest)) =
      hashPair left right :: hashLayer (evenLayer padding rest) := by
  have parity : (left :: right :: rest).length % 2 = rest.length % 2 := by
    simp only [List.length_cons]
    omega
  rw [evenLayer, evenLayer, parity]
  split <;> rfl

/-- Hashing the roots of a completed layer gives the roots of its nodes paired up. -/
theorem hashLayer_roots (padding : Tree) (nodes : List Tree) :
    hashLayer (evenLayer padding.root (nodes.map Tree.root)) =
      (Tree.pairUp padding nodes).map Tree.root := by
  -- A last odd node is paired with the padding on both sides.
  induction nodes using Tree.pairUp.induct with
  | case1 left right rest ih =>
    rw [List.map_cons, List.map_cons, hashLayer_evenLayer_cons, ih]
    rfl
  | case2 last => rfl
  | case3 => rfl

/-- Raising the roots of a nonempty layer gives the root of the tree raised over its nodes. -/
theorem raiseLayer_roots (config : HashingConfig) (level : Nat) {nodes : List Tree}
    (nonempty : nodes ≠ []) (remaining : Nat) :
    raiseLayer config level (nodes.map Tree.root) remaining =
      (Tree.raise level nodes remaining).root := by
  induction remaining generalizing level nodes with
  | zero =>
    obtain ⟨node, rest, rfl⟩ := List.exists_cons_of_ne_nil nonempty
    rfl
  | succ remaining ih =>
    -- Pairing up leaves at least one node of a nonempty layer.
    have above : Tree.pairUp (Tree.zero level) nodes ≠ [] := by
      match nodes, nonempty with
      | [_], _ => simp [Tree.pairUp]
      | _ :: _ :: _, _ => simp [Tree.pairUp]
    rw [raiseLayer, Tree.raise, ← ih (level + 1) above]
    simp only [hashLayerTasks_eq, ite_self, hashLayer_roots]

/-- A chunk is the root of the leaf that holds it. -/
theorem roots_leaves (chunks : List Chunk) : (chunks.map Tree.leaf).map Tree.root = chunks := by
  rw [List.map_map]
  exact List.map_id _

/-- The root over chunks that fit is the root of the full tree with nodes of these roots. -/
theorem merkleize_roots (config : HashingConfig) {nodes : List Tree} {depth : Nat}
    (shallow : depth < 64) (fits : nodes.length ≤ 2 ^ depth) :
    merkleize config (nodes.map Tree.root) depth = .ok (Tree.ofNodes depth nodes).root := by
  -- The tree is filled level by level with the same padding that the layers are completed with.
  have filled := Tree.fill_eq_ok shallow fits
  have room : ¬ (depth < 64 ∧ 1 <<< depth < nodes.length) := by
    rw [Nat.one_shiftLeft]
    omega
  rw [merkleize, List.length_map, if_neg room]
  cases nodes with
  | nil => simp [zeroHash?, Tree.zero?, shallow, Tree.ofNodes_nil, Except.map]
  | cons node rest =>
    have wide : ¬ Tree.capacity depth < (node :: rest).length := by
      rw [Tree.capacity, if_pos shallow, Nat.one_shiftLeft]
      omega
    rw [Tree.fill, if_neg wide, if_neg (by simp), if_neg (by omega)] at filled
    rw [if_neg (by simp), if_neg (by omega), raiseLayer_roots config 0 (by simp),
      Except.ok.inj filled]

/-- The root of a value's chunks is reported like any other result of its schema. -/
theorem merkleRoot_roots (config : HashingConfig) {nodes : List Tree} {depth : Nat}
    (shallow : depth < 64) (fits : nodes.length ≤ 2 ^ depth) :
    merkleRoot config (nodes.map Tree.root) depth = .ok (Tree.ofNodes depth nodes).root := by
  rw [merkleRoot, merkleize_roots config shallow fits]
  rfl

/-- The root over packed bytes that fit is the root of the full tree of those bytes. -/
theorem merkleRoot_packBytes (config : HashingConfig) {bytes : Bytes} {depth : Nat}
    (shallow : depth < 64) (fits : (bytes.length + 31) / 32 ≤ 2 ^ depth) :
    merkleRoot config (packBytes bytes) depth = .ok (Tree.ofBytes depth bytes).root := by
  have leaves := roots_leaves (packBytes bytes)
  rw [← Tree.ofNodes_packBytes, ← merkleRoot_roots config shallow (by simpa using fits), leaves]

end Ssz
