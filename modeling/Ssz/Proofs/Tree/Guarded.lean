import Ssz.Proofs.Tree.Level

/-! Filling, repeating and collecting with each shift and each zero subtree checked as it is met. -/

namespace Ssz

/-- The size of a level, made by a shift whose amount has to be below the width of a word. -/
def levelSize? (depth : Nat) : Except LimitError UInt64 :=
  if depth < 64 then .ok (levelSize depth) else .error (.levelTooDeep depth)

/-- Levels at depths below 64 have their sizes in a word. -/
theorem levelSize?_eq_ok {depth : Nat} (shallow : depth < 64) :
    levelSize? depth = .ok (levelSize depth) :=
  if_pos shallow

/-- A shift by the width of a word or more is stopped. -/
theorem levelSize?_of_le {depth : Nat} (deep : 64 ≤ depth) :
    levelSize? depth = .error (.levelTooDeep depth) :=
  if_neg (Nat.not_lt.mpr deep)

namespace Tree

/-- Zero subtrees of depths below 64 exist. -/
theorem zero?_eq_ok {depth : Nat} (shallow : depth < 64) : zero? depth = .ok (zero depth) :=
  if_pos shallow

/-- A deeper zero subtree is refused. -/
theorem zero?_of_le {depth : Nat} (deep : 64 ≤ depth) :
    zero? depth = .error (.zeroTooDeep depth) :=
  if_neg (Nat.not_lt.mpr deep)

/-- One level up, where the padding sibling of a last odd node is a zero subtree that has to exist. -/
def pairUp? (level : Nat) : List Tree → Except LimitError (List Tree)
  | left :: right :: rest => return branch left right :: (← pairUp? level rest)
  | [last] => return [branch last (← zero? level)]
  | [] => .ok []

/-- The rest of the way up from a single node, which is a left spine over zero siblings. -/
def leftSpine? (level : Nat) (node : Tree) : (remaining : Nat) → Except LimitError Tree
  | 0 => .ok node
  | remaining + 1 => do leftSpine? (level + 1) (branch node (← zero? level)) remaining

/-- The tree over a layer, which is paired up until a single node is left to go on as a spine. -/
def raise? (level : Nat) (layer : List Tree) : (remaining : Nat) → Except LimitError Tree
  | 0 => .ok (layer.headD (zero level))
  | remaining + 1 =>
    match layer with
    | [node] => leftSpine? level node (remaining + 1)
    | layer => do raise? (level + 1) (← pairUp? level layer) remaining

/-- Filling with each zero subtree checked. -/
def fill? (nodes : List Tree) (depth : Nat) : Except ViewError Tree :=
  if capacity depth < nodes.length then
    .error (.indexOutOfBounds nodes.length (capacity depth))
  else if nodes.isEmpty then (zero? depth).mapError .limit
  else (raise? 0 nodes depth).mapError .limit

/-- Doubling with each shift and each zero subtree checked, over the table of full trees. -/
def replicateFrom? : (full : List Tree) → (count : UInt64) → Except LimitError Tree
  | [], _ => zero? 0
  | [node], count => if count = 0 then zero? 0 else .ok node
  | whole :: half :: smaller, count => do
    let below := smaller.length
    if count = 0 then zero? (below + 1)
    else if count = (← levelSize? (below + 1)) then return whole
    else if count ≤ (← levelSize? below) then
      return branch (← replicateFrom? (half :: smaller) count) (← zero? below)
    else
      return branch half (← replicateFrom? (half :: smaller) (count - (← levelSize? below)))

/-- Repeating with each shift and each zero subtree checked. -/
def replicate? (node : Tree) (count : UInt64) (depth : Nat) : Except ViewError Tree :=
  if capacity depth < count.toNat then
    .error (.indexOutOfBounds count.toNat (capacity depth))
  else (replicateFrom? (doublings node (depth + 1)).reverse count).mapError .limit

/-- Collecting with each shift checked; the fault is prepared before the node is looked at. -/
def collect? : Tree → (depth : Nat) → (count : UInt64) → Except ViewError (List Tree)
  | tree, 0, count => .ok (if count = 0 then [] else [tree])
  | tree, depth + 1, count =>
    if count = 0 then .ok []
    else do
      let missing ← (levelSize? (depth + 1)).mapError .limit
      match tree with
      | leaf _ => .error (.gindexOutOfBounds (missing ||| 0))
      | branch left right =>
        let half ← (levelSize? depth).mapError .limit
        let front ← collect? left depth (min count half)
        if count ≤ half then return front
        return front ++ (← collect? right depth (count - half))

section Layers

variable {level remaining : Nat} {layer nodes : List Tree} {node : Tree} {depth : Nat}

/-- On the levels that have zero subtrees, pairing up needs no check. -/
theorem pairUp?_eq_ok (shallow : level < 64) (layer : List Tree) :
    pairUp? level layer = .ok (pairUp (zero level) layer) := by
  induction layer using pairUp.induct with
  | case1 left right rest ih => rw [pairUp?, ih, pairUp, ok_bind, pure_eq_ok]
  | case2 last => rw [pairUp?, zero?_eq_ok shallow, pairUp, ok_bind, pure_eq_ok]
  | case3 => rfl

/-- Below a spine of depth 64 there are zero siblings all the way. -/
theorem leftSpine?_eq_ok (room : level + remaining ≤ 64) (node : Tree) :
    leftSpine? level node remaining = .ok (raise level [node] remaining) := by
  induction remaining generalizing level node with
  | zero => rfl
  | succ remaining ih =>
    -- A single node is paired with the same sibling by both.
    rw [leftSpine?, zero?_eq_ok (by omega), ok_bind, ih (by omega), raise, pairUp]

/-- Going on as a spine from a single node makes no difference to the tree that is raised. -/
theorem raise?_eq_ok (room : level + remaining ≤ 64) (layer : List Tree) :
    raise? level layer remaining = .ok (raise level layer remaining) := by
  -- A layer of one node goes on as a spine, and a longer one by pairing up.
  induction remaining generalizing level layer with
  | zero => rfl
  | succ remaining ih =>
    have paired := pairUp?_eq_ok (show level < 64 by omega)
    match layer with
    | [node] => rw [raise?, leftSpine?_eq_ok room]
    | [] => rw [raise?, paired, ok_bind, ih (by omega), raise]; simp
    | first :: second :: rest => rw [raise?, paired, ok_bind, ih (by omega), raise]; simp

/-- A spine that goes up beyond depth 64 needs a zero sibling there is none of. -/
theorem leftSpine?_of_lt (start : level ≤ 64) (deep : 64 < level + remaining) (node : Tree) :
    leftSpine? level node remaining = .error (.zeroTooDeep 64) := by
  -- The siblings below depth 64 are there, so the spine goes up to that depth and stops.
  induction remaining generalizing level node with
  | zero => omega
  | succ remaining ih =>
    rw [leftSpine?]
    rcases Nat.lt_or_ge level 64 with lower | top
    · rw [zero?_eq_ok lower, ok_bind, ih (by omega) (by omega)]
    · have same : level = 64 := by omega
      rw [same, zero?_of_le (Nat.le_refl 64), error_bind]

/-- Pairing up halves a layer, where an odd node counts as a pair. -/
@[simp] theorem length_pairUp (padding : Tree) (layer : List Tree) :
    (pairUp padding layer).length = (layer.length + 1) / 2 := by
  -- Two nodes become one at each step of the recursion.
  induction layer using pairUp.induct with
  | case1 left right rest ih =>
    simp only [pairUp, List.length_cons, ih]
    omega
  | case2 last => simp [pairUp]
  | case3 => rfl

/-- A layer that is down to a single node by level 64 is stopped there if it has to go further. -/
theorem raise?_of_lt (nonempty : layer ≠ []) (start : level ≤ 64) (deep : 64 < level + remaining)
    (fits : layer.length ≤ 2 ^ (64 - level)) :
    raise? level layer remaining = .error (.zeroTooDeep 64) := by
  induction remaining generalizing level layer with
  | zero => omega
  | succ remaining ih =>
    match layer with
    | [node] => rw [raise?, leftSpine?_of_lt start deep]
    | first :: second :: rest =>
      -- Two nodes fit below level 64 only, and half as many fit one level up.
      have lower : level < 64 := by
        rcases Nat.lt_or_ge level 64 with lower | top
        · exact lower
        · rw [Nat.sub_eq_zero_of_le top] at fits
          simp at fits
      have halved : 2 ^ (64 - level) = 2 ^ (64 - (level + 1)) * 2 := by
        rw [← Nat.pow_succ]
        congr 1
        omega
      rw [raise?, pairUp?_eq_ok lower, ok_bind, ih _ (by omega) (by omega)]
      · rw [length_pairUp]
        omega
      · simp [pairUp]
      · simp

/-- Filling layer by layer is the loop that ends as a spine, with its zero subtrees checked. -/
theorem fill?_eq (nodes : List Tree) (depth : Nat) : fill? nodes depth = fill nodes depth := by
  rw [fill?, fill]
  split
  · rfl
  rename_i fits
  cases nodes with
  | nil => rfl
  | cons node rest =>
    simp only [List.isEmpty_cons, Bool.false_eq_true, if_false]
    split
    · rename_i deep
      -- A list whose length is a word is down to one node at level 64.
      rw [raise?_of_lt (by simp) (Nat.zero_le _) (by omega)]
      · rfl
      · rw [capacity, if_neg (by omega)] at fits
        simp only [UInt64.size] at fits
        omega
    · rw [raise?_eq_ok (by omega)]
      rfl

end Layers

section Doubling

variable {depth : Nat}

/-- Over a table with an entry for each level of a word, doubling needs no check. -/
theorem replicateFrom?_eq_ok {full : List Tree} (small : full.length ≤ 64) (count : UInt64) :
    replicateFrom? full count = .ok (replicateFrom full count) := by
  -- The table loses its largest tree at every step, so both recursions are on the table.
  induction full generalizing count with
  | nil => rfl
  | cons whole rest ih =>
    cases rest with
    | nil =>
      rw [replicateFrom?, replicateFrom]
      split <;> rfl
    | cons half smaller =>
      rw [List.length_cons, List.length_cons] at small
      have level := levelSize?_eq_ok (show smaller.length + 1 < 64 by omega)
      have below := levelSize?_eq_ok (show smaller.length < 64 by omega)
      have padding := zero?_eq_ok (show smaller.length < 64 by omega)
      have empty := zero?_eq_ok (show smaller.length + 1 < 64 by omega)
      have step := ih (by rw [List.length_cons]; omega)
      simp only [replicateFrom?, replicateFrom, level, below, padding, empty, step, ok_bind,
        pure_eq_ok]
      split
      · rfl
      split
      · rfl
      split <;> rfl

/-- Repeating by doubling stays within its checks, and where it stops it is for one of them. -/
theorem replicate?_eq (node : Tree) (count : UInt64) (depth : Nat) :
    replicate? node count depth = replicate node count depth := by
  rw [replicate?, replicate]
  rcases Nat.lt_or_ge depth 64 with shallow | deep
  · rw [capacity, if_pos shallow, if_neg (Nat.not_le.mpr shallow)]
    split
    · rfl
    · rw [replicateFrom?_eq_ok (by rw [List.length_reverse, length_doublings]; omega)]
      rfl
  · have word : ¬ capacity depth < count.toNat := by
      have bounded := count.toNat_lt
      rw [capacity, if_neg (Nat.not_lt.mpr deep), UInt64.size]
      omega
    obtain ⟨below, rfl⟩ := Nat.exists_eq_succ_of_ne_zero (show depth ≠ 0 by omega)
    -- The first thing looked at is the number of copies in the whole tree.
    rw [if_neg word, if_pos deep, reverse_doublings, reverse_doublings, replicateFrom?]
    simp only [List.length_reverse, length_doublings, zero?_of_le deep, levelSize?_of_le deep]
    split <;> rfl

end Doubling

section Collecting

variable {depth : Nat}

/-- Collecting stays within its checks on levels that words number. -/
theorem collect?_eq_firstNodes (shallow : depth < 64) (tree : Tree) (count : UInt64) :
    collect? tree depth count = tree.firstNodes depth count := by
  -- A shift by less than 64 gives the size of the level, here and on every level below.
  induction depth generalizing tree count with
  | zero => cases tree <;> rfl
  | succ depth ih =>
    have shallower : depth < 64 := by omega
    rw [collect?, levelSize?_eq_ok shallow, levelSize?_eq_ok shallower]
    cases tree with
    | leaf chunk => rfl
    | branch left right =>
      rw [firstNodes]
      split
      · rfl
      · simp only [Except.mapError, ok_bind, ih shallower]

/-- A deeper level stops the collecting of anything at the first shift that is made for it. -/
theorem collect?_eq (tree : Tree) (depth : Nat) (count : UInt64) :
    collect? tree depth count = tree.nodesAtDepth depth count := by
  -- The position of the error is computed before the tree is looked at.
  rw [nodesAtDepth]
  split
  · rename_i shallow
    exact collect?_eq_firstNodes shallow tree count
  · rename_i deep
    obtain ⟨below, rfl⟩ := Nat.exists_eq_succ_of_ne_zero (show depth ≠ 0 by omega)
    rw [collect?, levelSize?_of_le (Nat.not_lt.mp deep)]
    rfl

end Collecting

end Tree

end Ssz
