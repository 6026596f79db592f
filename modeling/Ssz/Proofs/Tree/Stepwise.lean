import Mathlib.Data.List.Induction
import Ssz.Proofs.Tree.Batch
import Ssz.Proofs.Tree.Position
import Ssz.Proofs.Tree.Walk

/-! Replacing many nodes of one level at once does what replacing them one after the other does. -/

namespace Ssz.Tree

variable {tree result : Tree} {depth : Nat} {updates : List (UInt64 × Tree)}

/-- The tree with replacements grafted one after the other on the level at a depth. -/
def graftAll (depth : Nat) (tree : Tree) (updates : List (UInt64 × Tree)) : Option Tree :=
  updates.foldlM (fun current update => current.graft (turnsTo depth update.1.toNat) update.2) tree

/-- Without replacements the tree stays as it is. -/
@[simp] theorem graftAll_nil (depth : Nat) (tree : Tree) : graftAll depth tree [] = some tree := rfl

/-- The first replacement is made first. -/
theorem graftAll_cons (depth : Nat) (tree : Tree) (update : UInt64 × Tree)
    (rest : List (UInt64 × Tree)) :
    graftAll depth tree (update :: rest) =
      (tree.graft (turnsTo depth update.1.toNat) update.2).bind (graftAll depth · rest) := rfl

/-- A last replacement is made in the tree that all others have led to. -/
theorem graftAll_concat (depth : Nat) (tree : Tree) (updates : List (UInt64 × Tree))
    (update : UInt64 × Tree) :
    graftAll depth tree (updates ++ [update]) =
      (graftAll depth tree updates).bind fun current =>
        current.graft (turnsTo depth update.1.toNat) update.2 := by
  simp [graftAll, List.foldlM_append]

/-- Replacements at a single position leave the last of them there. -/
theorem graftAll_zero (tree : Tree) {index : Nat}
    (here : ∀ update ∈ updates, update.1.toNat = index) :
    graftAll 0 tree updates = some ((newest updates index).getD tree) := by
  -- Each replacement takes the place of the whole tree, so the ones before it are lost.
  induction updates generalizing tree with
  | nil => simp [newest]
  | cons update rest ih =>
    have later := ih update.2 fun other member => here other (List.mem_cons_of_mem _ member)
    have placed : tree.graft (turnsTo 0 update.1.toNat) update.2 = some update.2 := by
      simp [turnsTo, graft]
    rw [graftAll_cons, placed, Option.bind_some, later, newest_cons,
      if_pos (here update List.mem_cons_self)]
    cases newest rest index <;> rfl

/-- There is no position below a leaf to replace. -/
theorem graftAll_leaf (depth : Nat) (chunk : Chunk) (some : updates ≠ []) :
    graftAll (depth + 1) (leaf chunk) updates = none := by
  cases updates with
  | nil => exact absurd rfl some
  | cons update rest => rw [graftAll_cons, turnsTo_succ, graft, Option.bind_none]

/-- Replacements below a branch are made in each half alone, in the order they were given. -/
theorem graftAll_branch (depth : Nat) (left right : Tree) (updates : List (UInt64 × Tree)) :
    graftAll (depth + 1) (branch left right) updates =
      (graftAll depth left (updates.filter fun update => !update.1.toNat.testBit depth)).bind
        fun front => (graftAll depth right
          (updates.filter fun update => update.1.toNat.testBit depth)).map (branch front) := by
  -- Each replacement changes one half, so those in the other half do not wait for it.
  induction updates generalizing left right with
  | nil => rfl
  | cons update rest ih =>
    rw [graftAll_cons, turnsTo_succ, graft]
    cases turn : update.1.toNat.testBit depth with
    | false =>
      simp only [Bool.false_eq_true, if_false, List.filter_cons, turn, Bool.not_false, if_true,
        graftAll_cons]
      cases left.graft (turnsTo depth update.1.toNat) update.2 with
      | none => rfl
      | some inner => exact ih inner right
    | true =>
      simp only [if_true, List.filter_cons, turn, Bool.not_true, Bool.false_eq_true, if_false,
        graftAll_cons]
      cases right.graft (turnsTo depth update.1.toNat) update.2 with
      | none =>
        cases graftAll depth left (rest.filter fun update => !update.1.toNat.testBit depth) <;> rfl
      | some inner => exact ih left inner

/-- Replacements are made exactly where all their positions are in use before the first of them. -/
theorem isSome_graftAll : (graftAll depth tree updates).isSome = true ↔
    ∀ update ∈ updates, (tree.descend (turnsTo depth update.1.toNat)).isSome = true := by
  -- The first replacement is made or not, and then it no longer matters to the others.
  induction updates generalizing tree with
  | nil => simp
  | cons update rest ih =>
    rw [graftAll_cons, List.forall_mem_cons, ← isSome_graft tree _ update.2]
    cases placed : tree.graft (turnsTo depth update.1.toNat) update.2 with
    | none => simp
    | some current =>
      -- The positions in use on this level are the same ones after the first replacement.
      have kept (index : Nat) : (current.descend (turnsTo depth index)).isSome =
          (tree.descend (turnsTo depth index)).isSome :=
        isSome_descend_graft placed (by simp)
      simp only [Option.bind_some, ih, kept, Option.isSome_some, true_and]

/-- The last replacement that was asked for at a position is what is found there. -/
theorem descend_graftAll (done : graftAll depth tree updates = some result)
    (inside : ∀ update ∈ updates, update.1.toNat < 2 ^ depth) {index : Nat} {node : Tree}
    (found : newest updates index = some node) :
    result.descend (turnsTo depth index) = some node := by
  -- The induction takes the last replacement away, which no later one can undo.
  induction updates using List.reverseRecOn generalizing result with
  | nil => cases found
  | append_singleton updates update ih =>
    rw [graftAll_concat] at done
    obtain ⟨current, before, placed⟩ := Option.bind_eq_some_iff.mp done
    rw [newest_concat] at found
    by_cases here : update.1.toNat = index
    · rw [if_pos here] at found
      obtain rfl := Option.some.inj found
      rw [← here]
      exact descend_graft placed
    · rw [if_neg here] at found
      have earlier := ih before (fun other member => inside other (by simp [member])) found
      obtain ⟨other, member, rfl, _⟩ := mem_of_newest found
      -- Different numbers of the level are reached by different turns.
      have parted : turnsTo depth update.1.toNat ≠ turnsTo depth other.1.toNat := fun same =>
        here (eq_of_turnsTo (inside update (by simp)) (inside other (by simp [member])) same)
      rw [descend_graft_of_apart placed (apart_of_length (by simp) parted), earlier]

/-- Positions off the ways to all replacements are as they were. -/
theorem descend_graftAll_of_apart (done : graftAll depth tree updates = some result)
    {turns : List Bool}
    (apart : ∀ update ∈ updates, Apart (turnsTo depth update.1.toNat) turns) :
    result.descend turns = tree.descend turns := by
  -- No replacement touches the position, so the tree can change under the induction.
  induction updates generalizing tree with
  | nil =>
    obtain rfl : tree = result := by simpa using done
    rfl
  | cons update rest ih =>
    rw [graftAll_cons] at done
    obtain ⟨current, placed, later⟩ := Option.bind_eq_some_iff.mp done
    obtain ⟨first, others⟩ := List.forall_mem_cons.mp apart
    rw [ih later others, descend_graft_of_apart placed first]

/--
Replacements sorted out for one pass over a subtree: those that are pending stand in the order of
their indices, one at each, on the stretch of the level that lies below the subtree, and at each
index the same one counts as among all that were asked for.
-/
structure Prepared (depth : Nat) (base : UInt64) (pending updates : List (UInt64 × Tree)) :
    Prop where
  /-- The level of the stretch is one that words number. -/
  shallow : depth < 64
  /-- The stretch starts at a multiple of its width. -/
  aligned : 2 ^ depth ∣ base.toNat
  /-- The stretch stays within a word. -/
  bounded : base.toNat + 2 ^ depth ≤ 2 ^ 64
  /-- The pending replacements are sorted, and no two of them have the same index. -/
  sorted : pending.Pairwise fun first second => first.1 < second.1
  /-- All pending replacements lie on the stretch. -/
  within : ∀ update ∈ pending, base.toNat ≤ update.1.toNat ∧ update.1.toNat < base.toNat + 2 ^ depth
  /-- All replacements that were asked for lie on the stretch. -/
  asked : ∀ update ∈ updates, base.toNat ≤ update.1.toNat ∧ update.1.toNat < base.toNat + 2 ^ depth
  /-- The pending replacement at an index is the last one that was asked for there. -/
  counted : ∀ index, base.toNat ≤ index → index < base.toNat + 2 ^ depth →
    newest pending index = newest updates index

namespace Prepared

variable {base : UInt64} {pending : List (UInt64 × Tree)}

/-- The right half of a stretch starts half its width after the left one. -/
theorem toNat_middle (known : Prepared (depth + 1) base pending updates) :
    (base + levelSize depth).toNat = base.toNat + 2 ^ depth := by
  have shallow : depth < 64 := Nat.lt_of_succ_lt known.shallow
  have bounded := known.bounded
  have positive := Nat.two_pow_pos depth
  rw [Nat.pow_succ] at bounded
  rw [UInt64.toNat_add, toNat_levelSize shallow, Nat.mod_eq_of_lt (by omega)]

/-- Half the width of a stretch divides the number it starts at. -/
theorem aligned_half (known : Prepared (depth + 1) base pending updates) :
    2 ^ depth ∣ base.toNat :=
  Nat.dvd_trans ⟨2, Nat.pow_succ ..⟩ known.aligned

/-- The first turn to an index tells on which half of the stretch it lies. -/
theorem testBit (known : Prepared (depth + 1) base pending updates) {update : UInt64 × Tree}
    (member : update ∈ updates) :
    update.1.toNat.testBit depth = decide (base.toNat + 2 ^ depth ≤ update.1.toNat) :=
  testBit_of_aligned known.aligned (known.asked update member).1 (known.asked update member).2

/-- The pending replacements below the middle are prepared for the left half. -/
theorem left (known : Prepared (depth + 1) base pending updates) :
    Prepared depth base (pending.takeWhile fun update => update.1 < base + levelSize depth)
      (updates.filter fun update => !update.1.toNat.testBit depth) := by
  have halved : 2 ^ (depth + 1) = 2 ^ depth + 2 ^ depth := by omega
  have positive := Nat.two_pow_pos depth
  -- In a sorted list the search that stops at the middle finds all that lies below it.
  rw [(split_below (base + levelSize depth) known.sorted).1]
  refine {
    shallow := Nat.lt_of_succ_lt known.shallow
    aligned := known.aligned_half
    bounded := ?bounded
    sorted := known.sorted.filter _
    within := ?within
    asked := ?asked
    counted := ?counted }
  case bounded =>
    have bounded := known.bounded
    omega
  case within =>
    intro update member
    simp only [List.mem_filter, decide_eq_true_eq, UInt64.lt_iff_toNat_lt, known.toNat_middle]
      at member
    exact ⟨(known.within update member.1).1, member.2⟩
  case asked =>
    intro update member
    obtain ⟨given, low⟩ := List.mem_filter.mp member
    simp only [known.testBit given, Bool.not_eq_true', decide_eq_false_iff_not] at low
    exact ⟨(known.asked update given).1, by omega⟩
  case counted =>
    intro index above below
    -- What is left out on either side lies on the right half.
    rw [newest_filter, newest_filter]
    · exact known.counted index above (by omega)
    · intro update member here
      simp only [known.testBit member, Bool.not_eq_true', decide_eq_false_iff_not]
      omega
    · intro update _ here
      simp only [decide_eq_true_eq, UInt64.lt_iff_toNat_lt, known.toNat_middle]
      omega

/-- The pending replacements from the middle on are prepared for the right half. -/
theorem right (known : Prepared (depth + 1) base pending updates) :
    Prepared depth (base + levelSize depth)
      (pending.dropWhile fun update => update.1 < base + levelSize depth)
      (updates.filter fun update => update.1.toNat.testBit depth) := by
  have halved : 2 ^ (depth + 1) = 2 ^ depth + 2 ^ depth := by omega
  rw [(split_below (base + levelSize depth) known.sorted).2]
  refine {
    shallow := Nat.lt_of_succ_lt known.shallow
    aligned := ?aligned
    bounded := ?bounded
    sorted := known.sorted.filter _
    within := ?within
    asked := ?asked
    counted := ?counted }
  case aligned =>
    rw [known.toNat_middle]
    exact Nat.dvd_add known.aligned_half (Nat.dvd_refl _)
  case bounded =>
    have bounded := known.bounded
    rw [known.toNat_middle]
    omega
  case within =>
    intro update member
    simp only [List.mem_filter, Bool.not_eq_true', decide_eq_false_iff_not, UInt64.lt_iff_toNat_lt,
      known.toNat_middle] at member
    have within := known.within update member.1
    rw [known.toNat_middle]
    omega
  case asked =>
    intro update member
    obtain ⟨given, high⟩ := List.mem_filter.mp member
    have asked := known.asked update given
    simp only [known.testBit given, decide_eq_true_eq] at high
    rw [known.toNat_middle]
    omega
  case counted =>
    intro index above below
    rw [known.toNat_middle] at above below
    -- What is left out on either side lies on the left half.
    rw [newest_filter, newest_filter]
    · exact known.counted index (by omega) (by omega)
    · intro update member here
      simp only [known.testBit member, decide_eq_true_eq]
      omega
    · intro update _ here
      simp only [Bool.not_eq_true', decide_eq_false_iff_not, UInt64.lt_iff_toNat_lt,
        known.toNat_middle]
      omega

/-- Where nothing is pending, nothing was asked for. -/
theorem eq_nil (known : Prepared depth base [] updates) : updates = [] := by
  rw [List.eq_nil_iff_forall_not_mem]
  intro update member
  have within := known.asked update member
  -- A replacement at this index would count, also among those that are pending.
  exact newest_ne_none member (known.counted update.1.toNat within.1 within.2).symm

/-- Where something is pending, something was asked for. -/
theorem ne_nil {first : UInt64 × Tree} {rest : List (UInt64 × Tree)}
    (known : Prepared depth base (first :: rest) updates) : updates ≠ [] := by
  have within := known.within first List.mem_cons_self
  have counts := newest_ne_none (List.mem_cons_self : first ∈ first :: rest)
  rw [known.counted first.1.toNat within.1 within.2] at counts
  exact ne_nil_of_newest counts

/-- Replacements within a level are prepared by sorting them and keeping the last at each index. -/
theorem ofSort (shallow : depth < 64) (inside : ∀ update ∈ updates, update.1.toNat < 2 ^ depth) :
    Prepared depth 0 (latest (updates.mergeSort fun first second => first.1 ≤ second.1))
      updates where
  -- Sorting is stable, and the last of equal indices is kept, so each newest update stays.
  shallow := shallow
  aligned := Nat.dvd_zero _
  bounded := by simpa using Nat.pow_le_pow_right (by decide) (Nat.le_of_lt shallow)
  sorted := pairwise_latest (pairwise_mergeSort_index updates)
  within := by
    intro update member
    simpa using inside update (List.mem_mergeSort.mp (mem_latest member))
  asked := by simpa using inside
  counted := by
    intro index _ _
    rw [newest_latest, newest_mergeSort]

end Prepared

/--
Rebuilding any tree with prepared replacements does the same as grafting all that were asked for,
one after the other.
-/
theorem toOption_rebuild {base : UInt64} {pending : List (UInt64 × Tree)}
    (known : Prepared depth base pending updates) :
    (tree.rebuild depth base pending).toOption = graftAll depth tree updates := by
  -- The induction follows the halving of the stretch, for all trees and lists at once.
  induction depth generalizing tree base pending updates with
  | zero =>
    have here (update : UInt64 × Tree)
        (within : base.toNat ≤ update.1.toNat ∧ update.1.toNat < base.toNat + 2 ^ 0) :
        update.1.toNat = base.toNat := by omega
    rw [rebuild_node tree known.sorted fun update member =>
        here update (known.within update member),
      graftAll_zero tree fun update member => here update (known.asked update member),
      known.counted base.toNat (Nat.le_refl _) (by omega)]
    rfl
  | succ depth ih =>
    cases pending with
    | nil =>
      rw [known.eq_nil, rebuild]
      rfl
    | cons first rest =>
      cases tree with
      | leaf chunk =>
        -- Below a leaf neither way finds a place for what is pending.
        rw [graftAll_leaf depth chunk known.ne_nil]
        rfl
      | branch left right =>
        -- Each half is rebuilt with the replacements that lie on it.
        have low := @ih left _ _ _ known.left
        have high := @ih right _ _ _ known.right
        rw [graftAll_branch, ← low, ← high, rebuild]
        · cases left.rebuild depth base
              ((first :: rest).takeWhile fun update => update.1 < base + levelSize depth) with
          | error fault => rfl
          | ok inner =>
            cases right.rebuild depth (base + levelSize depth)
              ((first :: rest).dropWhile fun update => update.1 < base + levelSize depth) <;> rfl
        · simp

/--
Rebuilding with another answer in place of the one for several replacements at a single position.
-/
def rebuildOr (several : Except ViewError Tree) :
    Tree → (depth : Nat) → (base : UInt64) → List (UInt64 × Tree) → Except ViewError Tree
  | tree, _, _, [] => .ok tree
  | tree, 0, _, updates =>
    match updates with
    | [(_, replacement)] => .ok replacement
    | [] => .ok tree
    | _ => several
  | leaf _, depth + 1, _, _ => .error (.gindexOutOfBounds (Gindex.ofDepthIndex (depth + 1) 0))
  | branch left right, depth + 1, base, updates => do
    let middle := base + levelSize depth
    let below := updates.takeWhile fun update => update.1 < middle
    let above := updates.dropWhile fun update => update.1 < middle
    return branch (← rebuildOr several left depth base below)
      (← rebuildOr several right depth middle above)

/-- Rebuilding is told by that, with its own answer for several replacements at a position. -/
theorem rebuildOr_self (tree : Tree) (depth : Nat) (base : UInt64)
    (pending : List (UInt64 × Tree)) :
    rebuildOr (.error (.gindexOutOfBounds (Gindex.ofDepthIndex 0 0))) tree depth base pending =
      tree.rebuild depth base pending := by
  -- Both recursions take the same steps, down to a single position.
  induction depth generalizing tree base pending with
  | zero =>
    match pending with
    | [] => cases tree <;> rfl
    | [update] => cases tree <;> rfl
    | first :: second :: rest => cases tree <;> rfl
  | succ depth ih =>
    cases pending with
    | nil => cases tree <;> rfl
    | cons first rest =>
      cases tree with
      | leaf chunk => rfl
      | branch left right => simp only [rebuildOr, rebuild, ih]

/-- Prepared replacements never meet at a position, whatever would be answered there. -/
theorem rebuildOr_eq {base : UInt64} {pending : List (UInt64 × Tree)}
    (known : Prepared depth base pending updates) (several : Except ViewError Tree) :
    rebuildOr several tree depth base pending = tree.rebuild depth base pending := by
  induction depth generalizing tree base pending updates with
  | zero =>
    match pending with
    | [] => cases tree <;> rfl
    | [update] => cases tree <;> rfl
    | first :: second :: rest =>
      -- The stretch below a single position has room for one index only.
      have order : first.1 < second.1 := List.rel_of_pairwise_cons known.sorted (by simp)
      have low := known.within first (by simp)
      have high := known.within second (by simp)
      rw [UInt64.lt_iff_toNat_lt] at order
      omega
  | succ depth ih =>
    cases pending with
    | nil => cases tree <;> rfl
    | cons first rest =>
      cases tree with
      | leaf chunk => rfl
      | branch left right => simp only [rebuildOr, rebuild, ih known.left, ih known.right]

/-- A batch succeeds where all indices lie on the level and the replacements can all be grafted. -/
theorem updateMany_eq_ok (shallow : depth < 64) : tree.updateMany depth updates = .ok result ↔
    (∀ update ∈ updates, update.1.toNat < 2 ^ depth) ∧
      graftAll depth tree updates = some result := by
  by_cases inside : ∀ update ∈ updates, update.1.toNat < 2 ^ depth
  · have equal := @toOption_rebuild tree _ _ _ _ (Prepared.ofSort shallow inside)
    rw [and_iff_right inside, updateMany_of_inside shallow inside, ← equal]
    cases tree.rebuild depth 0
      (latest (updates.mergeSort fun first second => first.1 ≤ second.1)) <;> simp [Except.toOption]
  · rw [updateMany, if_neg (by omega), Nat.one_shiftLeft]
    cases found : updates.find? fun update => 2 ^ depth ≤ update.1.toNat with
    | some update =>
      constructor
      · intro done
        cases done
      · intro given
        exact absurd given.1 inside
    | none =>
      -- Where no index is past the level, all of them lie on it.
      refine absurd ?_ inside
      intro update member
      simpa using List.find?_eq_none.mp found update member

/-- Grafting within the level of a full tree leaves the last replacement at each position. -/
theorem graftAll_full (supply : Nat → Tree)
    (inside : ∀ update ∈ updates, update.1.toNat < 2 ^ depth) :
    graftAll depth (full depth supply) updates =
      some (full depth fun i => (newest updates i).getD (supply i)) := by
  -- The last replacement is put into the full tree that all earlier ones have left.
  induction updates using List.reverseRecOn with
  | nil => rfl
  | append_singleton updates update ih =>
    have within := inside update (by simp)
    rw [graftAll_concat, ih fun other member => inside other (by simp [member]),
      Option.bind_some, graft_full, Nat.mod_eq_of_lt within]
    congr 1
    apply full_congr
    intro i _
    rw [newest_concat]
    by_cases here : update.1.toNat = i
    · rw [if_pos here, if_pos here.symm, Option.getD_some]
    · rw [if_neg here, if_neg (Ne.symm here)]

/-- A batch of replacements within the level of a full tree makes all of them at once. -/
theorem updateMany_full (shallow : depth < 64) (supply : Nat → Tree)
    (inside : ∀ update ∈ updates, update.1.toNat < 2 ^ depth) :
    (full depth supply).updateMany depth updates =
      .ok (full depth fun i => (newest updates i).getD (supply i)) :=
  (updateMany_eq_ok shallow).mpr ⟨inside, graftAll_full supply inside⟩

/-- Grafting on a level is replacing at its positions. -/
theorem foldlM_update (shallow : depth < 64)
    (inside : ∀ update ∈ updates, update.1.toNat < 2 ^ depth)
    (done : graftAll depth tree updates = some result) :
    updates.foldlM (fun current update =>
      current.update (Gindex.ofDepthIndex depth update.1) update.2) tree = .ok result := by
  induction updates generalizing tree with
  | nil =>
    obtain rfl : tree = result := by simpa using done
    rfl
  | cons update rest ih =>
    obtain ⟨first, others⟩ := List.forall_mem_cons.mp inside
    rw [graftAll_cons] at done
    obtain ⟨current, placed, later⟩ := Option.bind_eq_some_iff.mp done
    -- The position of a level has the turns of its number, and grafting needs no more.
    have replaced : tree.update (Gindex.ofDepthIndex depth update.1) update.2 = .ok current := by
      rw [Tree.update, atPosition_eq_ok, Gindex.path_ofDepthIndex shallow first]
      exact ⟨Gindex.ofDepthIndex_ne_zero shallow first, placed⟩
    rw [List.foldlM_cons, replaced]
    exact ih others later

/-- A position of a level is in use in a tree when the turns to it can be gone. -/
theorem exists_navigate_iff (shallow : depth < 64) {index : UInt64}
    (within : index.toNat < 2 ^ depth) :
    (∃ node, tree.navigate (Gindex.ofDepthIndex depth index) = .ok node) ↔
      (tree.descend (turnsTo depth index.toNat)).isSome = true := by
  simp only [navigate_ofDepthIndex shallow within, Option.isSome_iff_exists]

/-- What it means that a batch of replacements on a level does what the same ones do in turn. -/
structure BatchesUpdates (tree : Tree) (depth : Nat) (updates : List (UInt64 × Tree)) : Prop where
  /-- It succeeds exactly when each index lies on the level and names a position of the tree. -/
  succeeds : (∃ result, tree.updateMany depth updates = .ok result) ↔
    ∀ update ∈ updates, update.1.toNat < 2 ^ depth ∧
      ∃ node, tree.navigate (Gindex.ofDepthIndex depth update.1) = .ok node
  /-- Its result is the one of the replacements made in the order they were given. -/
  inTurn : ∀ result, tree.updateMany depth updates = .ok result →
    updates.foldlM (fun current update =>
      current.update (Gindex.ofDepthIndex depth update.1) update.2) tree = .ok result
  /-- The last of the replacements at an index is the one found there. -/
  lastWins : ∀ result, tree.updateMany depth updates = .ok result →
    ∀ (index : UInt64) (node : Tree), newest updates index.toNat = some node →
      result.navigate (Gindex.ofDepthIndex depth index) = .ok node
  /-- Positions off the ways to all replacements hold what they held. -/
  untouched : ∀ result, tree.updateMany depth updates = .ok result → ∀ position : Gindex,
    (∀ update ∈ updates, Apart (Gindex.ofDepthIndex depth update.1).path position.path) →
      result.navigate position = tree.navigate position
  /-- The pass over the tree is one that has its own answer to several at a single position. -/
  pass : ∀ base pending,
    rebuildOr (.error (.gindexOutOfBounds (Gindex.ofDepthIndex 0 0))) tree depth base pending =
      tree.rebuild depth base pending
  /-- That answer is never given: any other one in its place leaves the batch as it is. -/
  settled : (∀ update ∈ updates, update.1.toNat < 2 ^ depth) → ∀ several : Except ViewError Tree,
    rebuildOr several tree depth 0
      (latest (updates.mergeSort fun first second => first.1 ≤ second.1)) =
        tree.updateMany depth updates

/-- Replacing many nodes of a level at once does what replacing one after the other does. -/
theorem batchesUpdates (tree : Tree) {depth : Nat} (shallow : depth < 64)
    (updates : List (UInt64 × Tree)) : BatchesUpdates tree depth updates where
  succeeds := by
    simp only [updateMany_eq_ok shallow, exists_and_left, ← Option.isSome_iff_exists,
      isSome_graftAll, ← forall_and]
    apply forall₂_congr
    intro update _
    exact and_congr_right fun within => (exists_navigate_iff shallow within).symm
  inTurn := by
    intro result done
    obtain ⟨inside, grafted⟩ := (updateMany_eq_ok shallow).mp done
    exact foldlM_update shallow inside grafted
  lastWins := by
    intro result done index node found
    obtain ⟨inside, grafted⟩ := (updateMany_eq_ok shallow).mp done
    obtain ⟨update, member, here, _⟩ := mem_of_newest found
    -- What counts at an index was asked for there, so the index lies on the level.
    have within : index.toNat < 2 ^ depth := here ▸ inside update member
    exact (navigate_ofDepthIndex shallow within).mpr (descend_graftAll grafted inside found)
  untouched := by
    intro result done position apart
    obtain ⟨inside, grafted⟩ := (updateMany_eq_ok shallow).mp done
    have kept : result.descend position.path = tree.descend position.path := by
      apply descend_graftAll_of_apart grafted
      intro update member
      rw [← Gindex.path_ofDepthIndex shallow (inside update member)]
      exact apart update member
    rw [navigate, navigate, atPosition, atPosition, kept]
  pass := rebuildOr_self tree depth
  settled := by
    intro inside several
    rw [rebuildOr_eq (Prepared.ofSort shallow inside), updateMany_of_inside shallow inside]

/-- The last of two replacements at an index counts, beside one at another index. -/
theorem batchesUpdates_repeated :
    1 < 64 ∧
      BatchesUpdates (branch (leaf Chunk.zero) (leaf Chunk.zero).twice) 1
        [(1, leaf Chunk.zero), (0, (leaf Chunk.zero).twice), (1, (leaf Chunk.zero).twice.twice)] ∧
      (branch (leaf Chunk.zero) (leaf Chunk.zero).twice).updateMany 1
        [(1, leaf Chunk.zero), (0, (leaf Chunk.zero).twice), (1, (leaf Chunk.zero).twice.twice)] =
          .ok (branch (leaf Chunk.zero).twice (leaf Chunk.zero).twice.twice) :=
  ⟨by decide, batchesUpdates _ (by decide) _,
    (updateMany_eq_ok (by decide)).mpr ⟨by simp, rfl⟩⟩

end Ssz.Tree
