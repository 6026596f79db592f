import Mathlib.Data.List.Forall2
import Mathlib.Data.Set.List
import Ssz.Proofs.Tree.Position
import Ssz.Proofs.Tree.Walk
import Ssz.Tree.Level

/-! Collecting a level: its first nodes are those that the turns to their numbers reach, in order. -/

namespace Ssz.Tree

/-- What the turns to each of the first numbers of a level reach, which is nothing below a leaf. -/
def levelStart (tree : Tree) (depth count : Nat) : List (Option Tree) :=
  (List.range (min count (2 ^ depth))).map fun index => tree.descend (turnsTo depth index)

/-- No number is looked at where nothing is asked for. -/
@[simp] theorem levelStart_none (tree : Tree) (depth : Nat) : tree.levelStart depth 0 = [] := by
  simp [levelStart]

/-- The only position of the top level is that of the tree itself. -/
theorem levelStart_top (tree : Tree) {count : Nat} (some : count ≠ 0) :
    tree.levelStart 0 count = [.some tree] := by
  have single : min count (2 ^ 0) = 1 := by
    rw [Nat.pow_zero]
    omega
  rw [levelStart, single]
  simp [turnsTo, descend]

/-- There is nothing below a leaf, however much is asked for. -/
theorem levelStart_leaf (chunk : Chunk) (depth count : Nat) :
    (leaf chunk).levelStart (depth + 1) count =
      List.replicate (min count (2 ^ (depth + 1))) none := by
  simp [levelStart, turnsTo_succ, descend, List.map_const']

/-- The first positions of a level lie in the left half, and those beyond its size in the right. -/
theorem levelStart_branch (left right : Tree) (depth count : Nat) :
    (branch left right).levelStart (depth + 1) count =
      left.levelStart depth count ++ right.levelStart depth (count - 2 ^ depth) := by
  -- The highest bit of a number is the first turn, and the right half counts on from its size.
  have low (index : Nat) (member : index ∈ List.range (min count (2 ^ depth))) :
      (branch left right).descend (turnsTo (depth + 1) index) =
        left.descend (turnsTo depth index) := by
    have within : index < 2 ^ depth := by
      rw [List.mem_range] at member
      omega
    rw [turnsTo_succ_of_lt within, descend, if_neg (by simp)]
  have high (index : Nat) (member : index ∈ List.range (min (count - 2 ^ depth) (2 ^ depth))) :
      (branch left right).descend (turnsTo (depth + 1) (2 ^ depth + index)) =
        right.descend (turnsTo depth index) := by
    have within : index < 2 ^ depth := by
      rw [List.mem_range] at member
      omega
    rw [turnsTo_succ, Nat.testBit_two_pow_add_eq, Nat.testBit_lt_two_pow within, descend,
      turnsTo_two_pow_add]
    simp
  rw [levelStart, levelStart, levelStart, ← List.map_congr_left low, ← List.map_congr_left high]
  rcases Nat.le_total count (2 ^ depth) with front | beyond
  · -- All that is asked for lies in the left half.
    have rest : count - 2 ^ depth = 0 := by omega
    have wider : min count (2 ^ (depth + 1)) = min count (2 ^ depth) := by
      rw [Nat.pow_succ]
      omega
    simp [rest, wider]
  · have whole : min count (2 ^ depth) = 2 ^ depth := by omega
    have split : min count (2 ^ (depth + 1)) =
        2 ^ depth + min (count - 2 ^ depth) (2 ^ depth) := by
      rw [Nat.pow_succ]
      omega
    rw [whole, split, List.range_add, List.map_append, List.map_map]
    rfl

/-- The first positions of the bottom level of a full tree hold the beginning of its supply. -/
theorem levelStart_full (supply : Nat → Tree) {depth count : Nat} (fits : count ≤ 2 ^ depth) :
    (full depth supply).levelStart depth count = (List.range count).map fun i => some (supply i) := by
  rw [levelStart, Nat.min_eq_left fits]
  apply List.map_congr_left
  intro index member
  have within : index < 2 ^ depth := Nat.lt_of_lt_of_le (List.mem_range.mp member) fits
  rw [descend_full, Nat.mod_eq_of_lt within]

/-- A list is made of the values of a function exactly when each of its members is one. -/
theorem exists_eq_map_iff {α β : Type} {made : α → β} {members : List β} :
    (∃ sources : List α, members = sources.map made) ↔
      ∀ member ∈ members, ∃ source, member = made source := by
  have range := Set.ext_iff.mp (Set.range_list_map made) members
  simpa only [Set.mem_range, Set.mem_ofPred_eq, eq_comm] using range

section Collect

variable {tree : Tree} {depth : Nat} {count : UInt64} {nodes : List Tree} {chunks : List Chunk}
  {fault : ViewError}

/-- Collecting nothing succeeds in every tree. -/
@[simp] theorem firstNodes_none (tree : Tree) (depth : Nat) :
    tree.firstNodes depth 0 = .ok [] := by
  cases depth <;> cases tree <;> rfl

/-- At the top the tree itself is all there is to collect. -/
theorem firstNodes_top (tree : Tree) (some : count ≠ 0) : tree.firstNodes 0 count = .ok [tree] := by
  cases tree <;> rw [firstNodes, if_neg some]

/-- Below a leaf nothing can be collected. -/
theorem firstNodes_leaf (chunk : Chunk) (depth : Nat) (some : count ≠ 0) :
    (leaf chunk).firstNodes (depth + 1) count =
      .error (.gindexOutOfBounds (Gindex.ofDepthIndex (depth + 1) 0)) := by
  rw [firstNodes, if_neg some]

/-- Below a branch the left half is collected, and then what is missing from the right half. -/
theorem firstNodes_branch (shallow : depth < 64) (left right : Tree) (count : UInt64) :
    (branch left right).firstNodes (depth + 1) count =
      (do
        let front ← left.firstNodes depth (min count (levelSize depth))
        let back ← right.firstNodes depth (UInt64.ofNat (count.toNat - 2 ^ depth))
        return front ++ back) := by
  have half := toNat_levelSize shallow
  rw [firstNodes]
  by_cases none : count = 0
  · have front : min 0 (levelSize depth) = 0 := if_pos UInt64.zero_le
    simp [none, front]
  · by_cases within : count ≤ levelSize depth
    · -- The right half is not entered, and nothing would be asked of it.
      have few : count.toNat ≤ 2 ^ depth := by
        simpa [UInt64.le_iff_toNat_le, half] using within
      simp [none, within, Nat.sub_eq_zero_of_le few]
    · have many : 2 ^ depth < count.toNat := by
        simpa [UInt64.le_iff_toNat_le, half] using within
      have ordered : levelSize depth ≤ count := by
        rw [UInt64.le_iff_toNat_le, half]
        omega
      have rest : count - levelSize depth = UInt64.ofNat (count.toNat - 2 ^ depth) := by
        rw [← half, UInt64.ofNat_sub (UInt64.le_iff_toNat_le.mp ordered), UInt64.ofNat_toNat,
          UInt64.ofNat_toNat]
      simp [none, within, rest]

/-- Collecting a level gives the nodes that its first numbers reach, if all of them reach one. -/
theorem firstNodes_eq_ok (shallow : depth < 64) : tree.firstNodes depth count = .ok nodes ↔
    tree.levelStart depth count.toNat = nodes.map some := by
  induction depth generalizing tree count nodes with
  | zero =>
    by_cases none : count = 0
    · cases nodes <;> simp [none]
    · have some := toNat_ne_zero none
      rw [firstNodes_top tree none, levelStart_top tree some, Except.ok.injEq]
      exact (List.map_injective_iff.mpr (Option.some_injective Tree)).eq_iff (a := [tree]).symm
  | succ depth ih =>
    have shallower : depth < 64 := by omega
    cases tree with
    | leaf chunk =>
      by_cases none : count = 0
      · cases nodes <;> simp [none]
      · -- The first position that is asked for is missing already.
        have some := toNat_ne_zero none
        have asked : min count.toNat (2 ^ (depth + 1)) ≠ 0 := by
          have positive := Nat.two_pow_pos (depth + 1)
          omega
        obtain ⟨fewer, asked⟩ := Nat.exists_eq_succ_of_ne_zero asked
        rw [levelStart_leaf, asked, List.replicate_succ, firstNodes_leaf chunk depth none]
        cases nodes <;> simp
    | branch left right =>
      have front : left.levelStart depth (min count (levelSize depth)).toNat =
          left.levelStart depth count.toNat := by
        rw [levelStart, levelStart, toNat_min_levelSize shallower, Nat.min_assoc, Nat.min_self]
      have rest : (UInt64.ofNat (count.toNat - 2 ^ depth)).toNat = count.toNat - 2 ^ depth :=
        toNat_ofNat_of_le_word (Nat.sub_le _ _)
      -- Both halves are collected by the hypothesis, and their nodes follow each other.
      simp only [firstNodes_branch shallower, bind_eq_ok, pure_eq_ok, ih shallower, rest, front,
        levelStart_branch, Except.ok.injEq]
      constructor
      · intro ⟨first, collected, second, others, joined⟩
        rw [collected, others, ← List.map_append, joined]
      · intro all
        obtain ⟨first, second, joined, collected, others⟩ := List.append_eq_map_iff.mp all
        exact ⟨first, collected.symm, second, others.symm, joined.symm⟩

/-- What is missing on a level is reported as a position on one of the levels down to it. -/
theorem fault_of_firstNodes (shallow : depth < 64)
    (failed : tree.firstNodes depth count = .error fault) :
    ∃ level, level ≤ depth ∧ fault = .gindexOutOfBounds (Gindex.ofDepthIndex level 0) := by
  induction depth generalizing tree count with
  | zero =>
    by_cases none : count = 0
    · simp [none] at failed
    · rw [firstNodes_top tree none] at failed
      cases failed
  | succ depth ih =>
    have shallower : depth < 64 := by omega
    cases tree with
    | leaf chunk =>
      by_cases none : count = 0
      · simp [none] at failed
      · rw [firstNodes_leaf chunk depth none] at failed
        exact ⟨depth + 1, Nat.le_refl _, (Except.error.inj failed).symm⟩
    | branch left right =>
      -- One of the halves fails, and joining what they give does not.
      rw [firstNodes_branch shallower, bind_eq_error] at failed
      rcases failed with lower | ⟨front, _, failed⟩
      · obtain ⟨level, deep, same⟩ := ih shallower lower
        exact ⟨level, Nat.le_succ_of_le deep, same⟩
      · rcases bind_eq_error.mp failed with upper | ⟨back, _, joined⟩
        · obtain ⟨level, deep, same⟩ := ih shallower upper
          exact ⟨level, Nat.le_succ_of_le deep, same⟩
        · cases joined

/-- Collecting on a level that words number gives the nodes that its first numbers reach. -/
theorem nodesAtDepth_eq_ok (shallow : depth < 64) : tree.nodesAtDepth depth count = .ok nodes ↔
    tree.levelStart depth count.toNat = nodes.map some := by
  rw [nodesAtDepth, if_pos shallow, firstNodes_eq_ok shallow]

/-- The nodes collected on a level are as many as asked for, and each lies at its own number. -/
theorem descend_of_nodesAtDepth (shallow : depth < 64)
    (collected : tree.nodesAtDepth depth count = .ok nodes) :
    nodes.length = min count.toNat (2 ^ depth) ∧ ∀ index node, nodes[index]? = some node →
      tree.descend (turnsTo depth index) = some node := by
  have entries := (nodesAtDepth_eq_ok shallow).mp collected
  have counted : nodes.length = min count.toNat (2 ^ depth) := by
    have lengths := congrArg List.length entries
    simpa [levelStart] using lengths.symm
  refine ⟨counted, ?_⟩
  intro index node found
  have asked : index < min count.toNat (2 ^ depth) :=
    counted ▸ (List.getElem?_eq_some_iff.mp found).1
  -- The entry at a number is what the turns to it reach.
  have entry := congrArg (·[index]?) entries
  simpa only [levelStart, List.getElem?_map, List.getElem?_range asked, found, Option.map_some,
    Option.some.injEq] using entry

/-- Collecting chunks is collecting nodes that are leaves. -/
theorem chunksAtDepth_eq_ok : tree.chunksAtDepth depth count = .ok chunks ↔
    tree.nodesAtDepth depth count = .ok (chunks.map leaf) := by
  rw [chunksAtDepth, bind_eq_ok]
  constructor
  · intro ⟨nodes, collected, read⟩
    -- Only a leaf has a chunk to give, and the chunk is all there is to it.
    have each : List.Forall₂ (fun node chunk => node = leaf chunk) nodes chunks := by
      refine (mapM_eq_ok.mp read).imp ?_
      intro node chunk held
      cases node with
      | leaf own => rw [Except.ok.inj held]
      | branch => cases held
    have same : nodes = chunks.map leaf := by
      rw [← List.forall₂_eq_eq_eq]
      exact List.forall₂_map_right_iff.mpr each
    rw [collected, same]
  · intro collected
    refine ⟨_, collected, mapM_eq_ok.mpr (List.forall₂_map_left_iff.mpr ?_)⟩
    exact List.forall₂_same.mpr fun _ _ => rfl

/-- The nodes that a full tree was made of are read back from its level. -/
theorem nodesAtDepth_ofNodes (shallow : depth < 64) (fits : nodes.length ≤ 2 ^ depth) :
    (ofNodes depth nodes).nodesAtDepth depth (UInt64.ofNat nodes.length) = .ok nodes := by
  rw [nodesAtDepth_eq_ok shallow, toNat_ofNat_of_le_level shallow fits, ofNodes,
    levelStart_full _ fits]
  -- Each node is asked for within the list, so the padding is never seen.
  apply List.ext_getElem
  · simp
  · intro i _ within
    simp [List.getD_eq_getElem?_getD, show i < nodes.length by simpa using within]

/-- The chunks of the bytes that a full tree was made of are read back from its leaves. -/
theorem chunksAtDepth_ofBytes {bytes : Bytes} (shallow : depth < 64)
    (fits : (packBytes bytes).length ≤ 2 ^ depth) :
    (ofBytes depth bytes).chunksAtDepth depth (UInt64.ofNat (packBytes bytes).length) =
      .ok (packBytes bytes) := by
  have room : ((packBytes bytes).map leaf).length ≤ 2 ^ depth := by simpa using fits
  have leaves := nodesAtDepth_ofNodes shallow room
  rwa [ofNodes_packBytes, List.length_map, ← chunksAtDepth_eq_ok] at leaves

/-- What is said of the entries of a level is said of its positions. -/
theorem forall_levelStart_iff (shallow : depth < 64) {holds : Option Tree → Prop} :
    (∀ entry ∈ tree.levelStart depth count.toNat, holds entry) ↔
      ∀ index : UInt64, index.toNat < min count.toNat (2 ^ depth) →
        holds (tree.descend (turnsTo depth index.toNat)) := by
  simp only [levelStart, List.forall_mem_map, List.mem_range]
  constructor
  · intro all index asked
    exact all index.toNat asked
  · intro all index asked
    -- A number on the level is that of a word.
    have word : (UInt64.ofNat index).toNat = index := toNat_ofNat_of_le_level shallow (by omega)
    rw [← word]
    exact all _ (by rwa [word])

end Collect

/-- What it means that collecting on a level gives its first nodes and chunks, in their order. -/
structure CollectsLevel (tree : Tree) (depth : Nat) (count : UInt64) : Prop where
  /-- Nodes are collected exactly when there is one at each position that is asked for. -/
  succeeds : (∃ nodes, tree.nodesAtDepth depth count = .ok nodes) ↔
    ∀ index : UInt64, index.toNat < min count.toNat (2 ^ depth) →
      ∃ node, tree.navigate (Gindex.ofDepthIndex depth index) = .ok node
  /-- There are as many of them as asked for, or as many as the level has positions. -/
  counted : ∀ nodes, tree.nodesAtDepth depth count = .ok nodes →
    nodes.length = min count.toNat (2 ^ depth)
  /-- Each of them is the one at the position of its number. -/
  ordered : ∀ nodes, tree.nodesAtDepth depth count = .ok nodes →
    ∀ (index : UInt64) (node : Tree), nodes[index.toNat]? = some node →
      tree.navigate (Gindex.ofDepthIndex depth index) = .ok node
  /-- Chunks are collected exactly when there is a leaf at each of these positions. -/
  leaves : (∃ chunks, tree.chunksAtDepth depth count = .ok chunks) ↔
    ∀ index : UInt64, index.toNat < min count.toNat (2 ^ depth) →
      ∃ chunk, tree.navigate (Gindex.ofDepthIndex depth index) = .ok (leaf chunk)
  /-- They are the chunks of the leaves that are collected as nodes. -/
  chunks : ∀ chunks, tree.chunksAtDepth depth count = .ok chunks →
    tree.nodesAtDepth depth count = .ok (chunks.map leaf)
  /-- What is missing is reported as a position that reaches below the tree. -/
  refuses : ∀ fault, tree.nodesAtDepth depth count = .error fault ∨
    tree.chunksAtDepth depth count = .error fault →
      ∃ position, fault = .gindexOutOfBounds position
  /-- Asked for as many nodes as a tree was filled with, exactly those are collected. -/
  filled : ∀ nodes, fill nodes depth = .ok tree → count.toNat = nodes.length →
    tree.nodesAtDepth depth count = .ok nodes

/-- On every level that words number, the first nodes and chunks are collected in order. -/
theorem collectsLevel (tree : Tree) {depth : Nat} (shallow : depth < 64) (count : UInt64) :
    CollectsLevel tree depth count where
  succeeds := by
    simp only [nodesAtDepth_eq_ok shallow, exists_eq_map_iff, forall_levelStart_iff shallow]
    apply forall₂_congr
    intro index asked
    simp only [navigate_ofDepthIndex shallow (Nat.lt_of_lt_of_le asked (Nat.min_le_right _ _))]
  counted _ collected := (descend_of_nodesAtDepth shallow collected).1
  ordered := by
    intro nodes collected index node found
    obtain ⟨counted, reached⟩ := descend_of_nodesAtDepth shallow collected
    have asked := (List.getElem?_eq_some_iff.mp found).1
    have within : index.toNat < 2 ^ depth := by omega
    exact (navigate_ofDepthIndex shallow within).mpr (reached _ _ found)
  leaves := by
    simp only [chunksAtDepth_eq_ok, nodesAtDepth_eq_ok shallow, List.map_map, exists_eq_map_iff,
      forall_levelStart_iff shallow]
    apply forall₂_congr
    intro index asked
    simp only [navigate_ofDepthIndex shallow (Nat.lt_of_lt_of_le asked (Nat.min_le_right _ _)),
      Function.comp_apply]
  chunks _ := chunksAtDepth_eq_ok.mp
  refuses := by
    intro fault failed
    have missing (refused : tree.nodesAtDepth depth count = .error fault) :
        ∃ position, fault = .gindexOutOfBounds position := by
      rw [nodesAtDepth, if_pos shallow] at refused
      obtain ⟨level, _, same⟩ := fault_of_firstNodes shallow refused
      exact ⟨_, same⟩
    rcases failed with refused | refused
    · exact missing refused
    · rcases bind_eq_error.mp refused with refused | ⟨nodes, _, refused⟩
      · exact missing refused
      · -- All nodes are there, and one of them is no leaf.
        obtain ⟨node, _, refused⟩ := exists_of_mapM_eq_error refused
        cases node with
        | leaf own => cases refused
        | branch => exact ⟨_, (Except.error.inj refused).symm⟩
  filled := by
    intro nodes built number
    obtain ⟨fits, rfl⟩ := (fill_eq_ok_iff shallow).mp built
    have same : count = UInt64.ofNat nodes.length := by
      rw [← number, UInt64.ofNat_toNat]
    rw [same, nodesAtDepth_ofNodes shallow fits]

/-- Of a ragged level more nodes are asked for than it has, and all are collected, but no chunks. -/
theorem collectsLevel_ragged :
    1 < 64 ∧
      (branch (leaf Chunk.zero) (leaf Chunk.zero).twice).nodesAtDepth 1 5 =
        .ok [leaf Chunk.zero, (leaf Chunk.zero).twice] ∧
      (branch (leaf Chunk.zero) (leaf Chunk.zero).twice).navigate (Gindex.ofDepthIndex 1 1) =
        .ok (leaf Chunk.zero).twice ∧
      ¬ ∃ chunks, (branch (leaf Chunk.zero) (leaf Chunk.zero).twice).chunksAtDepth 1 5 =
        .ok chunks := by
  have laws := @collectsLevel (branch (leaf Chunk.zero) (leaf Chunk.zero).twice) 1 (by decide) 5
  refine ⟨by decide, rfl, laws.ordered _ rfl 1 _ rfl, ?_⟩
  rintro ⟨chunks, collected⟩
  -- The second node is no leaf, so it is not one of those that chunks are read from.
  have nodes : [leaf Chunk.zero, (leaf Chunk.zero).twice] = chunks.map leaf :=
    Except.ok.inj (laws.chunks chunks collected)
  have inside : (leaf Chunk.zero).twice ∈ chunks.map leaf := by
    rw [← nodes]
    simp
  obtain ⟨chunk, _, same⟩ := List.mem_map.mp inside
  cases same

end Ssz.Tree
