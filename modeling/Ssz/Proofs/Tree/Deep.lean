import Ssz.Proofs.Tree.Padding

/-! Levels that words do not number: where they are stopped, and what is still built of them. -/

namespace Ssz.Tree

section Filling

variable {nodes : List Tree} {depth : Nat}

/-- Deep levels have room for every list whose length is a word. -/
theorem not_capacity_lt (deep : 64 ≤ depth) (word : nodes.length < UInt64.size) :
    ¬ capacity depth < nodes.length := by
  rw [capacity, if_neg (Nat.not_lt.mpr deep)]
  omega

/-- Without nodes the whole tree would be a zero subtree. -/
theorem fill_nil_deep (deep : 64 ≤ depth) :
    fill [] depth = .error (.limit (.zeroTooDeep depth)) := by
  rw [fill, if_neg (not_capacity_lt deep (by decide)), List.isEmpty_nil, if_pos rfl,
    zero?_of_le deep]
  rfl

/-- The first level beyond words is still filled, and the way further up needs a zero subtree. -/
theorem fill_deep (deep : 64 ≤ depth) (some : nodes ≠ []) (word : nodes.length < UInt64.size) :
    fill nodes depth =
      if depth = 64 then .ok (ofNodes depth nodes) else .error (.limit (.zeroTooDeep 64)) := by
  have nonempty : ¬ nodes.isEmpty = true := by simpa using some
  rw [fill, if_neg (not_capacity_lt deep word), if_neg nonempty]
  rcases Nat.lt_or_eq_of_le deep with deeper | rfl
  · have beyond : depth ≠ 64 := by omega
    rw [if_pos deeper, if_neg beyond]
  · -- All padding of the first deep level stands on levels that have zero subtrees.
    rw [if_neg (Nat.lt_irrefl 64), if_pos rfl, raise_eq_full, zero_zero, ofNodes]

/-- Copies of a node fill a deep level only if it is the first one and there are some of them. -/
theorem fill_copies_deep (deep : 64 ≤ depth) (node : Tree) (count : UInt64) :
    fill (List.replicate count.toNat node) depth =
      if count = 0 then .error (.limit (.zeroTooDeep depth))
      else if depth = 64 then .ok (ofNodes depth (List.replicate count.toNat node))
      else .error (.limit (.zeroTooDeep 64)) := by
  -- Without copies there is nothing to fill the level with but a zero subtree.
  by_cases none : count = 0
  · rw [none, UInt64.toNat_zero, List.replicate_zero, fill_nil_deep deep, if_pos rfl]
  · have some : List.replicate count.toNat node ≠ [] := by
      rw [Ne, List.replicate_eq_nil_iff]
      exact toNat_ne_zero none
    have word : (List.replicate count.toNat node).length < UInt64.size := by
      rw [List.length_replicate]
      exact count.toNat_lt
    rw [fill_deep deep some word, if_neg none]

end Filling

/-- What it means that a level is counted from left to right, however deep it lies. -/
structure CountsLevel (tree node : Tree) (count : UInt64) (depth : Nat) : Prop where
  /-- The first nodes are collected if all of them are there. -/
  collects : ∀ nodes, tree.levelStart depth count.toNat = nodes.map some →
    tree.nodesAtDepth depth count = .ok nodes
  /-- If one of them is missing, a position is reported. -/
  misses : none ∈ tree.levelStart depth count.toNat →
    ∃ position, tree.nodesAtDepth depth count = .error (.gindexOutOfBounds position)
  /-- Repeating a node gives the tree that filling with its copies gives. -/
  repeats : ∀ filled, fill (List.replicate count.toNat node) depth = .ok filled →
    replicate node count depth = .ok filled
  /-- No shift on the way reaches the width of a word. -/
  shifts : ∀ level, collect? tree depth count ≠ .error (.limit (.levelTooDeep level)) ∧
    replicate? node count depth ≠ .error (.limit (.levelTooDeep level))

section Counting

variable {tree node : Tree} {count : UInt64} {depth : Nat}

/-- The levels that words number are counted. -/
theorem countsLevel_of_lt (shallow : depth < 64) : CountsLevel tree node count depth where
  -- Collecting fails only for a missing node, and repeating only for a count beyond the level.
  collects _ := (nodesAtDepth_eq_ok shallow).mpr
  misses := by
    intro missing
    cases collected : tree.nodesAtDepth depth count with
    | ok nodes =>
      rw [(nodesAtDepth_eq_ok shallow).mp collected] at missing
      simp at missing
    | error fault =>
      rw [nodesAtDepth, if_pos shallow] at collected
      obtain ⟨level, _, rfl⟩ := fault_of_firstNodes shallow collected
      exact ⟨_, rfl⟩
  repeats := by
    intro filled built
    rw [replicate_eq_fill shallow, built]
  shifts := by
    intro level
    constructor
    · intro collected
      rw [collect?_eq_firstNodes shallow] at collected
      obtain ⟨_, _, same⟩ := fault_of_firstNodes shallow collected
      cases same
    · intro repeated
      rw [replicate?_eq, replicate, if_neg (Nat.not_le.mpr shallow)] at repeated
      split at repeated <;> cases repeated

/-- A deeper level is counted as long as nothing is asked for. -/
theorem countsLevel_none (deep : 64 ≤ depth) : CountsLevel tree node 0 depth where
  collects := by
    intro nodes found
    have empty : nodes = [] := by simpa using found
    rw [empty, nodesAtDepth, if_neg (Nat.not_lt.mpr deep), if_pos rfl]
  misses := by simp
  repeats := by
    -- Filling gives no tree that repeating would have to give.
    intro filled built
    rw [UInt64.toNat_zero, List.replicate_zero, fill_nil_deep deep] at built
    cases built
  shifts := by
    intro level
    constructor
    · intro collected
      rw [collect?_eq, nodesAtDepth, if_neg (Nat.not_lt.mpr deep), if_pos rfl] at collected
      cases collected
    · intro repeated
      rw [replicate?_eq, replicate, if_pos deep, if_pos rfl] at repeated
      cases repeated

/-- A level is counted exactly when words number it, or nothing is asked for. -/
theorem countsLevel_iff : CountsLevel tree node count depth ↔ depth < 64 ∨ count = 0 := by
  rcases Nat.lt_or_ge depth 64 with shallow | deep
  · simp [countsLevel_of_lt shallow, shallow]
  have beyond : ¬ depth < 64 := Nat.not_lt.mpr deep
  by_cases nothing : count = 0
  · simp [nothing, countsLevel_none deep]
  simp only [beyond, nothing, or_self, iff_false]
  -- The first position asked for is shifted by the whole depth.
  intro counts
  apply (counts.shifts depth).1
  rw [collect?_eq, nodesAtDepth, if_neg beyond, if_neg nothing]

end Counting

/-- What becomes of a level that words do not number. -/
structure StopsBeyondWords (tree node : Tree) (count : UInt64) (depth : Nat) : Prop where
  /-- It is not counted like other levels, unless nothing is asked for. -/
  counts : CountsLevel tree node count depth ↔ count = 0
  /-- Collecting is stopped at the shift for a position, even where all nodes are there. -/
  collects : tree.nodesAtDepth depth count =
    if count = 0 then .ok [] else .error (.limit (.levelTooDeep depth))
  /-- That is the first shift it meets when each of them is checked. -/
  walked : collect? tree depth count = tree.nodesAtDepth depth count
  /-- Repeating is stopped at the shift for a full tree, or at the zero subtree of no copies. -/
  repeats : replicate node count depth =
    .error (.limit (if count = 0 then .zeroTooDeep depth else .levelTooDeep depth))
  /-- That is the first check it fails when each shift and each zero subtree has one. -/
  doubled : replicate? node count depth = replicate node count depth
  /-- Filling is stopped at zero subtrees only, which the first such level has no need of. -/
  fills : fill (List.replicate count.toNat node) depth =
    if count = 0 then .error (.limit (.zeroTooDeep depth))
    else if depth = 64 then .ok (ofNodes depth (List.replicate count.toNat node))
    else .error (.limit (.zeroTooDeep 64))
  /-- Those are the ones it asks for when it goes layer by layer. -/
  layered : fill? (List.replicate count.toNat node) depth =
    fill (List.replicate count.toNat node) depth

/-- Beyond words, collecting and repeating stop at a shift where filling may go on. -/
theorem stopsBeyondWords (tree node : Tree) (count : UInt64) {depth : Nat} (deep : 64 ≤ depth) :
    StopsBeyondWords tree node count depth where
  -- Collecting and repeating shift at once by the depth, while filling starts from the nodes.
  counts := by
    have beyond : ¬ depth < 64 := Nat.not_lt.mpr deep
    simp [countsLevel_iff, beyond]
  collects := by
    rw [nodesAtDepth, if_neg (Nat.not_lt.mpr deep)]
  walked := collect?_eq tree depth count
  repeats := by
    rw [replicate, if_pos deep]
  doubled := replicate?_eq node count depth
  fills := fill_copies_deep deep node count
  layered := fill?_eq _ depth

/-- One copy fills the first level beyond words, and fails to be repeated on it. -/
theorem stopsBeyondWords_first :
    64 ≤ 64 ∧
      fill [leaf Chunk.zero] 64 = .ok (ofNodes 64 [leaf Chunk.zero]) ∧
      replicate (leaf Chunk.zero) 1 64 = .error (.limit (.levelTooDeep 64)) ∧
      (ofNodes 64 [leaf Chunk.zero]).nodesAtDepth 64 1 = .error (.limit (.levelTooDeep 64)) := by
  have laws := @stopsBeyondWords (ofNodes 64 [leaf Chunk.zero]) (leaf Chunk.zero) 1 64 (by decide)
  exact ⟨by decide, laws.fills, laws.repeats, laws.collects⟩

/-- A node at the start of the first level beyond words is there, but it is not collected. -/
theorem nodesAtDepth_first_deep :
    ∃ tall, fill [leaf (Chunk.ofLength 1)] 64 = .ok tall ∧
      tall.levelStart 64 1 = [some (leaf (Chunk.ofLength 1))] ∧
      tall.nodesAtDepth 64 1 ≠ .ok [leaf (Chunk.ofLength 1)] ∧
      replicate (leaf (Chunk.ofLength 1)) 1 64 ≠ .ok tall := by
  -- Filling goes up to depth 64, where the node is the first one of its level.
  refine ⟨ofNodes 64 [leaf (Chunk.ofLength 1)], ?_, ?_, ?_, ?_⟩
  · rw [fill_deep (by decide) (by simp) (by decide), if_pos rfl]
  · rw [ofNodes, levelStart_full _ (by decide)]
    rfl
  · intro collected
    rw [nodesAtDepth, if_neg (by decide), if_neg (by decide)] at collected
    cases collected
  · intro repeated
    rw [replicate, if_pos (by decide)] at repeated
    cases repeated

end Ssz.Tree
