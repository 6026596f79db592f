import Ssz.Proofs.Merkleize
import Ssz.Proofs.Tree.Guarded

/-! Padding with zeros: what is never built has the root of what it stands for. -/

namespace Ssz

/-- The root over a whole level of chunks, which are halved until a single one is left. -/
def binaryRoot : (depth : Nat) → (level : List Chunk) → Chunk
  | 0, level => level.headD Chunk.zero
  | depth + 1, level =>
    hashPair (binaryRoot depth (level.take (2 ^ depth))) (binaryRoot depth (level.drop (2 ^ depth)))

/-- A whole level that begins with the given chunks and has zero chunks after them. -/
def wholeLevel (depth : Nat) (chunks : List Chunk) : List Chunk :=
  chunks ++ List.replicate (2 ^ depth - chunks.length) Chunk.zero

namespace Tree

/-- The root of a full tree is the root over the whole level of the roots of its nodes. -/
theorem root_full (depth : Nat) (supply : Nat → Tree) :
    (full depth supply).root =
      binaryRoot depth ((List.range (2 ^ depth)).map fun i => (supply i).root) := by
  induction depth generalizing supply with
  | zero => rfl
  | succ depth ih =>
    -- Each half of the level holds the roots of one half of the tree.
    have halves : (List.range (2 ^ (depth + 1))).map (fun i => (supply i).root) =
        (List.range (2 ^ depth)).map (fun i => (supply i).root) ++
          (List.range (2 ^ depth)).map fun i => (supply (i + 2 ^ depth)).root := by
      rw [Nat.pow_succ, Nat.mul_two, List.range_add, List.map_append, List.map_map]
      simp only [Function.comp_def, Nat.add_comm]
    have front : ((List.range (2 ^ depth)).map fun i => (supply i).root).length = 2 ^ depth := by
      simp
    rw [halves, binaryRoot, List.take_left' front, List.drop_left' front, ← ih supply,
      ← ih fun i => supply (i + 2 ^ depth), full, root]

/-- Nodes with zero leaves after them have the roots of the nodes, and zero chunks after those. -/
theorem roots_eq_wholeLevel {depth : Nat} {nodes : List Tree} (fits : nodes.length ≤ 2 ^ depth) :
    (List.range (2 ^ depth)).map (fun i => (nodes.getD i (leaf Chunk.zero)).root) =
      wholeLevel depth (nodes.map root) := by
  -- The places below the number of nodes have nodes, and the others are filled with zeros.
  have length : nodes.length + (2 ^ depth - nodes.length) = 2 ^ depth := by omega
  apply List.ext_getElem
  · simp [wholeLevel, length]
  · intro i _ _
    by_cases within : i < nodes.length
    · simp [wholeLevel, within]
    · simp [wholeLevel, List.getElem_append, within, root]

/-- The root of filled nodes is the root over the whole level that begins with their roots. -/
theorem root_ofNodes {depth : Nat} {nodes : List Tree} (fits : nodes.length ≤ 2 ^ depth) :
    (ofNodes depth nodes).root = binaryRoot depth (wholeLevel depth (nodes.map root)) := by
  rw [ofNodes, root_full, roots_eq_wholeLevel fits]

/-- What it means that a level is padded with zeros, without a padding that is ever built. -/
structure PadsLevel (config : HashingConfig) (depth : Nat) : Prop where
  /-- The layered root of chunks that fit is the root over the whole level. -/
  merkleized : ∀ chunks : List Chunk, chunks.length ≤ 2 ^ depth →
    merkleize config chunks depth = .ok (binaryRoot depth (wholeLevel depth chunks))
  /-- A tree is filled with nodes exactly when they fit. -/
  succeeds : ∀ nodes, (∃ tree, fill nodes depth = .ok tree) ↔ nodes.length ≤ 2 ^ depth
  /-- Its root is the layered root of theirs. -/
  rooted : ∀ nodes tree, fill nodes depth = .ok tree →
    merkleize config (nodes.map root) depth = .ok tree.root
  /-- Each node lies at the position of its number. -/
  holds : ∀ nodes tree, fill nodes depth = .ok tree → ∀ (index : UInt64) (node : Tree),
    nodes[index.toNat]? = some node →
      tree.navigate (Gindex.ofDepthIndex depth index) = .ok node
  /-- All positions after the last node hold the zero chunk. -/
  padded : ∀ nodes tree, fill nodes depth = .ok tree → ∀ index : UInt64,
    nodes.length ≤ index.toNat → index.toNat < 2 ^ depth →
      tree.navigate (Gindex.ofDepthIndex depth index) = .ok (leaf Chunk.zero)
  /-- From a single node on, the layers are a left spine over zero subtrees. -/
  spine : ∀ nodes, fill? nodes depth = fill nodes depth

/-- Every level that words number is padded with zeros, under every hashing configuration. -/
theorem padsLevel (config : HashingConfig) {depth : Nat} (shallow : depth < 64) :
    PadsLevel config depth where
  -- The layers over chunks are those over leaves, and the full tree over nodes has the root of the
  -- whole level.
  merkleized := by
    intro chunks fits
    have room : (chunks.map leaf).length ≤ 2 ^ depth := by simpa using fits
    have rooted := merkleize_roots config shallow room
    rwa [root_ofNodes room, roots_leaves] at rooted
  succeeds := by
    intro nodes
    simp [fill_eq_ok_iff shallow]
  rooted := by
    intro nodes tree filled
    obtain ⟨fits, rfl⟩ := (fill_eq_ok_iff shallow).mp filled
    exact merkleize_roots config shallow fits
  holds := by
    intro nodes tree filled index node found
    obtain ⟨fits, rfl⟩ := (fill_eq_ok_iff shallow).mp filled
    have inside := (List.getElem?_eq_some_iff.mp found).1
    exact navigate_ofNodes shallow (Nat.lt_of_lt_of_le inside fits) found
  padded := by
    intro nodes tree filled index beyond within
    obtain ⟨_, rfl⟩ := (fill_eq_ok_iff shallow).mp filled
    rw [ofNodes, navigate_full shallow within, List.getD_eq_getElem?_getD,
      List.getElem?_eq_none beyond, Option.getD_none]
  spine nodes := fill?_eq nodes depth

/-- Three chunks leave a layer odd, and a single node on the deepest level is the end of a spine. -/
theorem padsLevel_odd :
    2 < 64 ∧ 63 < 64 ∧
      merkleize HashingConfig.standard [Chunk.ofLength 1, Chunk.ofLength 2, Chunk.ofLength 3] 2 =
        .ok (hashPair (hashPair (Chunk.ofLength 1) (Chunk.ofLength 2))
          (hashPair (Chunk.ofLength 3) Chunk.zero)) ∧
      ∃ tree, fill [leaf (Chunk.ofLength 1)] 63 = .ok tree ∧
        tree.navigate (Gindex.ofDepthIndex 63 0x7fffffffffffffff) = .ok (leaf Chunk.zero) := by
  have odd := @padsLevel HashingConfig.standard 2 (by decide)
  have deep := @padsLevel HashingConfig.standard 63 (by decide)
  -- The last place of the deepest level is read, which lies in the padding.
  refine ⟨by decide, by decide, odd.merkleized _ (by decide), ?_⟩
  obtain ⟨tree, filled⟩ := (deep.succeeds [leaf (Chunk.ofLength 1)]).mpr (by decide)
  exact ⟨tree, filled, deep.padded _ tree filled _ (by decide) (by decide)⟩

/-- Repeating a node gives what filling with a list of its copies gives. -/
theorem replicate_eq_fill {depth : Nat} (shallow : depth < 64) (node : Tree) (count : UInt64) :
    replicate node count depth = fill (List.replicate count.toNat node) depth := by
  rcases Nat.lt_or_ge (2 ^ depth) count.toNat with wide | fits
  · rw [fill_of_lt shallow (by simpa using wide), replicate, if_neg (Nat.not_le.mpr shallow),
      Nat.one_shiftLeft, if_pos wide, List.length_replicate]
  · rw [fill_eq_ok shallow (by simpa using fits), replicate_eq_ok node shallow fits]

/-- What it means that repeating a node is filling a tree with copies of it. -/
structure RepeatsByFilling (node : Tree) (count : UInt64) (depth : Nat) : Prop where
  /-- Both give the same tree, or the same fault. -/
  same : replicate node count depth = fill (List.replicate count.toNat node) depth
  /-- They give a tree exactly when the copies fit. -/
  succeeds : (∃ tree, replicate node count depth = .ok tree) ↔ count.toNat ≤ 2 ^ depth
  /-- More copies than there are positions are refused with both numbers. -/
  refused : 2 ^ depth < count.toNat →
    replicate node count depth = .error (.indexOutOfBounds count.toNat (2 ^ depth))
  /-- The one is made from the top over a table of doubled trees. -/
  doubled : replicate? node count depth = replicate node count depth
  /-- The other is made from the bottom layer by layer. -/
  layered : fill? (List.replicate count.toNat node) depth =
    fill (List.replicate count.toNat node) depth

/-- On every level that words number, repeating a node is filling a tree with copies of it. -/
theorem repeatsByFilling (node : Tree) (count : UInt64) {depth : Nat} (shallow : depth < 64) :
    RepeatsByFilling node count depth where
  -- All is said by filling with a list of copies, whose length is the count.
  same := replicate_eq_fill shallow node count
  succeeds := by
    simp [replicate_eq_fill shallow, fill_eq_ok_iff shallow]
  refused := by
    intro wide
    rw [replicate_eq_fill shallow, fill_of_lt shallow (by simpa using wide), List.length_replicate]
  doubled := replicate?_eq node count depth
  layered := fill?_eq _ depth

/-- One more copy than the deepest level has positions is refused, and as many as it has are not. -/
theorem repeatsByFilling_deepest :
    63 < 64 ∧
      (∃ tree, replicate (leaf Chunk.zero).twice 0x8000000000000000 63 = .ok tree) ∧
      replicate (leaf Chunk.zero).twice 0x8000000000000001 63 =
        .error (.indexOutOfBounds 0x8000000000000001 0x8000000000000000) := by
  have fits := @repeatsByFilling (leaf Chunk.zero).twice 0x8000000000000000 63 (by decide)
  have wide := @repeatsByFilling (leaf Chunk.zero).twice 0x8000000000000001 63 (by decide)
  exact ⟨by decide, fits.succeeds.mpr (by decide), wide.refused (by decide)⟩

end Tree

end Ssz
