import Ssz.Proofs.Tree.Full
import Ssz.Tree.Batch

/-! Replacing several nodes at once: each position ends up with the last node asked for there. -/

namespace Ssz.Tree

/-- The last of several replacements that was asked for at an index. -/
def newest (updates : List (UInt64 × Tree)) (index : Nat) : Option Tree :=
  (updates.filter fun update => update.1.toNat = index).getLast?.map (·.2)

/-- A first replacement counts only where no later one does. -/
theorem newest_cons (update : UInt64 × Tree) (rest : List (UInt64 × Tree)) (index : Nat) :
    newest (update :: rest) index =
      (newest rest index).or (if update.1.toNat = index then some update.2 else none) := by
  rw [newest, newest, List.filter_cons]
  -- Of the replacements at the index, this one stands first in the list.
  by_cases here : update.1.toNat = index
  · rw [if_pos (by simpa using here), if_pos here, List.getLast?_cons]
    cases (rest.filter fun update => update.1.toNat = index).getLast? <;> simp
  · rw [if_neg (by simpa using here), if_neg here, Option.or_none]

/-- A last replacement counts at its own index. -/
theorem newest_concat (updates : List (UInt64 × Tree)) (update : UInt64 × Tree) (index : Nat) :
    newest (updates ++ [update]) index =
      if update.1.toNat = index then some update.2 else newest updates index := by
  by_cases here : update.1.toNat = index <;> simp [newest, List.filter_append, here]

/-- A replacement that counts was asked for at its index. -/
theorem mem_of_newest {updates : List (UInt64 × Tree)} {index : Nat} {node : Tree}
    (found : newest updates index = some node) :
    ∃ update ∈ updates, update.1.toNat = index ∧ update.2 = node := by
  obtain ⟨update, last, rfl⟩ := Option.map_eq_some_iff.mp found
  have member := List.mem_filter.mp (List.mem_of_getLast? last)
  exact ⟨update, member.1, by simpa using member.2, rfl⟩

/-- A replacement that was asked for leaves one that counts at its index. -/
theorem newest_ne_none {updates : List (UInt64 × Tree)} {update : UInt64 × Tree}
    (member : update ∈ updates) :
    newest updates update.1.toNat ≠ none := by
  intro none
  -- The replacement itself is among those that were asked for at its index.
  simp only [newest, Option.map_eq_none_iff, List.getLast?_eq_none_iff] at none
  have kept : update ∈ updates.filter fun other => other.1.toNat = update.1.toNat :=
    List.mem_filter.mpr ⟨member, by simp⟩
  rw [none] at kept
  cases kept

/-- Where a replacement counts, there are some. -/
theorem ne_nil_of_newest {updates : List (UInt64 × Tree)} {index : Nat}
    (found : newest updates index ≠ none) : updates ≠ [] := by
  intro empty
  rw [empty] at found
  exact found rfl

/-- Leaving out replacements elsewhere does not change which one counts. -/
theorem newest_filter {updates : List (UInt64 × Tree)} {keep : UInt64 × Tree → Bool} {index : Nat}
    (kept : ∀ update ∈ updates, update.1.toNat = index → keep update) :
    newest (updates.filter keep) index = newest updates index := by
  rw [newest, newest, List.filter_filter]
  congr 2
  -- What is left out stands elsewhere, so the search at the index does not see it.
  apply List.filter_congr
  intro update member
  by_cases here : update.1.toNat = index
  · simp [here, kept update member here]
  · simp [here]

/-- Reducing neighbours of equal index to the last one does not change which one counts. -/
theorem newest_latest (updates : List (UInt64 × Tree)) (index : Nat) :
    newest (latest updates) index = newest updates index := by
  induction updates using latest.induct with
  | case1 first second rest same ih =>
    rw [latest, if_pos same, ih, newest_cons first, newest_cons second, same]
    -- The second replacement has the same index, so it hides the first.
    by_cases here : second.1.toNat = index <;> cases newest rest index <;> simp [here]
  | case2 first second rest other ih =>
    -- A replacement that is kept comes first on both sides.
    rw [latest, if_neg other, newest_cons, ih, ← newest_cons]
  | case3 short _ => cases short with
    | nil => rfl
    | cons update rest => cases rest with
      | nil => rfl
      | cons second rest => simp_all

/-- The order by indices is transitive. -/
theorem index_le_trans (first second third : UInt64 × Tree) :
    decide (first.1 ≤ second.1) = true → decide (second.1 ≤ third.1) = true →
      decide (first.1 ≤ third.1) = true := by
  simpa [UInt64.le_iff_toNat_le] using Nat.le_trans

/-- Any two indices are ordered. -/
theorem index_le_total (first second : UInt64 × Tree) :
    (decide (first.1 ≤ second.1) || decide (second.1 ≤ first.1)) = true := by
  simpa [UInt64.le_iff_toNat_le] using Nat.le_total first.1.toNat second.1.toNat

/-- Sorting by index puts replacements in the order of their indices. -/
theorem pairwise_mergeSort_index (updates : List (UInt64 × Tree)) :
    (updates.mergeSort fun first second => first.1 ≤ second.1).Pairwise
      fun first second => first.1 ≤ second.1 := by
  simpa using List.pairwise_mergeSort index_le_trans index_le_total updates

/-- Sorting does not change which replacement counts, because it keeps equal indices in order. -/
theorem newest_mergeSort (updates : List (UInt64 × Tree)) (index : Nat) :
    newest (updates.mergeSort fun first second => first.1 ≤ second.1) index =
      newest updates index := by
  have equal : updates.filter (fun update => update.1.toNat = index) =
      (updates.mergeSort fun first second => first.1 ≤ second.1).filter
        fun update => update.1.toNat = index := by
    -- The filtered list is sorted already, so it stays a sublist, and no entry is added.
    apply List.Sublist.eq_of_length
    · have kept : (updates.filter fun update => update.1.toNat = index).Sublist
          (updates.mergeSort fun first second => first.1 ≤ second.1) := by
        apply List.sublist_mergeSort index_le_trans index_le_total
        · apply List.pairwise_of_forall_mem_list
          intro first inFirst second inSecond
          simp only [List.mem_filter, decide_eq_true_eq] at inFirst inSecond
          simp [UInt64.le_iff_toNat_le, inFirst.2, inSecond.2]
        · exact List.filter_sublist
      have again := kept.filter fun update => update.1.toNat = index
      simpa only [List.filter_filter, Bool.and_self] using again
    · -- Sorting rearranges, so both filters keep equally many.
      exact ((List.mergeSort_perm updates _).filter _).length_eq.symm
  rw [newest, newest, ← equal]

/-- Nothing is added when neighbours of equal index are reduced to the last one. -/
theorem mem_latest {updates : List (UInt64 × Tree)} {update : UInt64 × Tree}
    (member : update ∈ latest updates) : update ∈ updates := by
  -- An update is dropped or kept, and never changed.
  induction updates using latest.induct with
  | case1 first second rest same ih =>
    rw [latest, if_pos same] at member
    exact List.mem_cons_of_mem _ (ih member)
  | case2 first second rest other ih =>
    rw [latest, if_neg other] at member
    rcases List.mem_cons.mp member with rfl | later
    · exact List.mem_cons_self
    · exact List.mem_cons_of_mem _ (ih later)
  | case3 short _ => cases short with
    | nil => exact member
    | cons update rest => cases rest with
      | nil => exact member
      | cons second rest => simp_all

/-- Of sorted replacements, one is left for each index. -/
theorem pairwise_latest {updates : List (UInt64 × Tree)}
    (sorted : updates.Pairwise fun first second => first.1 ≤ second.1) :
    (latest updates).Pairwise fun first second => first.1 < second.1 := by
  induction updates using latest.induct with
  | case1 first second rest same ih =>
    rw [latest, if_pos same]
    exact ih sorted.of_cons
  | case2 first second rest other ih =>
    rw [latest, if_neg other]
    refine .cons ?_ (ih sorted.of_cons)
    intro update member
    -- Neighbours are in order already, and here they differ.
    have below : first.1 ≤ second.1 := List.rel_of_pairwise_cons sorted (by simp)
    have strict : first.1 < second.1 := UInt64.lt_of_le_of_ne below other
    rcases List.mem_cons.mp (mem_latest member) with rfl | later
    · exact strict
    · exact UInt64.lt_of_lt_of_le strict (List.rel_of_pairwise_cons sorted.of_cons later)
  | case3 short _ => cases short with
    | nil => exact .nil
    | cons update rest => cases rest with
      | nil => simp [latest]
      | cons second rest => simp_all

/-- Of sorted replacements, those below an index come first and the others after them. -/
theorem split_below {updates : List (UInt64 × Tree)} (middle : UInt64)
    (sorted : updates.Pairwise fun first second => first.1 < second.1) :
    updates.takeWhile (fun update => update.1 < middle) =
        updates.filter (fun update => update.1 < middle) ∧
      updates.dropWhile (fun update => update.1 < middle) =
        updates.filter fun update => !(update.1 < middle) := by
  induction updates with
  | nil => simp
  | cons update rest ih =>
    obtain ⟨front, back⟩ := ih sorted.of_cons
    -- The order lets a search that stops at the first miss find all there are.
    by_cases below : update.1 < middle
    · simp [below, front, back]
    · -- Everything after an index that is not below is not below either.
      have later : ∀ other ∈ rest, ¬ other.1 < middle := by
        intro other member
        have order := List.rel_of_pairwise_cons sorted member
        simp only [UInt64.lt_iff_toNat_lt] at order below ⊢
        omega
      constructor
      · simp only [List.takeWhile_cons, List.filter_cons, below, decide_false, Bool.false_eq_true,
          if_false]
        refine (List.filter_eq_nil_iff.mpr ?_).symm
        intro other member
        simpa using later other member
      · simp only [List.dropWhile_cons, List.filter_cons, below, decide_false, Bool.false_eq_true,
          if_false, Bool.not_false, if_true]
        congr 1
        exact (List.filter_eq_self.mpr fun other member => by simpa using later other member).symm

/-- At a single position at most one replacement is left, which takes the place of the node. -/
theorem rebuild_node (node : Tree) {base : UInt64} {updates : List (UInt64 × Tree)}
    (sorted : updates.Pairwise fun first second => first.1 < second.1)
    (inside : ∀ update ∈ updates, update.1.toNat = base.toNat) :
    node.rebuild 0 base updates = .ok ((newest updates base.toNat).getD node) := by
  match updates with
  | [] => simp [rebuild, newest]
  | [update] =>
    rw [newest_cons, if_pos (inside update (by simp))]
    cases node <;> rfl
  | first :: second :: rest =>
    -- Two different indices do not fit at one position.
    have order : first.1 < second.1 := List.rel_of_pairwise_cons sorted (by simp)
    rw [UInt64.lt_iff_toNat_lt, inside first (by simp), inside second (by simp)] at order
    exact absurd order (Nat.lt_irrefl _)

/-- A batch that stays on the level of its depth is one pass with the replacements sorted out. -/
theorem updateMany_of_inside {tree : Tree} {depth : Nat} (shallow : depth < 64)
    {updates : List (UInt64 × Tree)} (inside : ∀ update ∈ updates, update.1.toNat < 2 ^ depth) :
    tree.updateMany depth updates = tree.rebuild depth 0
      (latest (updates.mergeSort fun first second => first.1 ≤ second.1)) := by
  -- No index is refused, since all of them lie on the level.
  have none : updates.find? (fun update => 2 ^ depth ≤ update.1.toNat) = none := by
    rw [List.find?_eq_none]
    intro update member
    simpa using inside update member
  rw [updateMany, if_neg (by omega), Nat.one_shiftLeft, none]

end Ssz.Tree
