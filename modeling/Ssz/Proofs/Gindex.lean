import Mathlib.Algebra.Group.Nat.Defs
import Ssz.Gindex

/-! Positions on one level of a tree: their numbers, depths and turns. -/

namespace Ssz

/-- The number of a word that is not zero is not zero. -/
theorem toNat_ne_zero {word : UInt64} (nonzero : word ≠ 0) : word.toNat ≠ 0 :=
  fun zero => nonzero (UInt64.toNat_inj.mp zero)

/-- A count up to a word fits in a word. -/
theorem toNat_ofNat_of_le_word {count : Nat} {bound : UInt64} (bounded : count ≤ bound.toNat) :
    (UInt64.ofNat count).toNat = count := by
  have small := bound.toNat_lt
  rw [UInt64.toNat_ofNat', Nat.mod_eq_of_lt (by omega)]

/-- A word does not lie below a count that it bounds. -/
theorem not_lt_ofNat_of_le_word {count : Nat} {bound : UInt64} (bounded : count ≤ bound.toNat) :
    ¬ bound < UInt64.ofNat count := by
  rw [UInt64.lt_iff_toNat_lt, toNat_ofNat_of_le_word bounded]
  omega

/-- A count of positions on a level at a depth below 64 fits in a word. -/
theorem toNat_ofNat_of_le_level {count depth : Nat} (shallow : depth < 64)
    (fits : count ≤ 2 ^ depth) : (UInt64.ofNat count).toNat = count := by
  have small : 2 ^ depth < 2 ^ 64 := Nat.pow_lt_pow_right (by decide) shallow
  rw [UInt64.toNat_ofNat', Nat.mod_eq_of_lt (Nat.lt_of_le_of_lt fits small)]

/-- The turns that lead to the position numbered `index` on the level at a depth. -/
def turnsTo (depth index : Nat) : List Bool :=
  (List.range depth).reverse.map index.testBit

/-- The first turn is told by the highest bit of the number. -/
theorem turnsTo_succ (depth index : Nat) :
    turnsTo (depth + 1) index = index.testBit depth :: turnsTo depth index := by
  simp [turnsTo, List.range_succ]

/-- A number that fits on the level above starts with a turn to the left. -/
theorem turnsTo_succ_of_lt {depth index : Nat} (within : index < 2 ^ depth) :
    turnsTo (depth + 1) index = false :: turnsTo depth index := by
  rw [turnsTo_succ, Nat.testBit_lt_two_pow within]

/-- What is added for a level above does not change the turns on the level itself. -/
theorem turnsTo_two_pow_add (depth index : Nat) :
    turnsTo depth (2 ^ depth + index) = turnsTo depth index := by
  apply List.map_congr_left
  intro place member
  have below : place < depth := by simpa using member
  exact Nat.testBit_two_pow_add_gt below index

/-- The turns to a number read its lowest bits only, so below the size of a level they tell it. -/
theorem eq_of_turnsTo {depth first second : Nat} (within : first < 2 ^ depth)
    (also : second < 2 ^ depth) (same : turnsTo depth first = turnsTo depth second) :
    first = second := by
  apply Nat.eq_of_testBit_eq
  intro place
  by_cases below : place < depth
  · exact List.map_inj_left.mp same place (by simpa using below)
  · -- From the depth on, both numbers have no bits left.
    have wide : 2 ^ depth ≤ 2 ^ place := Nat.pow_le_pow_right (by decide) (Nat.le_of_not_lt below)
    rw [Nat.testBit_lt_two_pow (Nat.lt_of_lt_of_le within wide),
      Nat.testBit_lt_two_pow (Nat.lt_of_lt_of_le also wide)]

/-- There is a turn for each level above a number. -/
@[simp] theorem length_turnsTo (depth index : Nat) : (turnsTo depth index).length = depth := by
  simp [turnsTo]

/-- The highest bit of a number tells whether it lies in the right half of an aligned range. -/
theorem testBit_of_aligned {depth base index : Nat} (aligned : 2 ^ (depth + 1) ∣ base)
    (above : base ≤ index) (within : index < base + 2 ^ (depth + 1)) :
    index.testBit depth = decide (base + 2 ^ depth ≤ index) := by
  obtain ⟨block, rfl⟩ := aligned
  obtain ⟨offset, rfl⟩ := Nat.exists_eq_add_of_le above
  have small : offset < 2 ^ (depth + 1) := by omega
  rw [Nat.testBit_two_pow_mul_add block small, if_pos (Nat.lt_succ_self depth)]
  -- The offset in the range has this bit when it reaches half the width.
  rw [Nat.pow_succ] at small
  by_cases low : offset < 2 ^ depth
  · rw [Nat.testBit_lt_two_pow low]
    simp only [Bool.false_eq, decide_eq_false_iff_not]
    omega
  · obtain ⟨rest, rfl⟩ := Nat.exists_eq_add_of_le (Nat.le_of_not_lt low)
    rw [Nat.testBit_two_pow_add_eq, Nat.testBit_lt_two_pow (by omega)]
    simp only [Bool.not_false, Bool.true_eq, decide_eq_true_eq]
    omega

/-- A level has as many positions as the power of two of its depth. -/
theorem toNat_levelSize {depth : Nat} (shallow : depth < 64) :
    (levelSize depth).toNat = 2 ^ depth := by
  have small : 2 ^ depth < 2 ^ 64 := Nat.pow_lt_pow_right (by decide) shallow
  -- The shift is taken modulo the width of a word, which changes nothing below 64.
  have place : depth % 2 ^ 64 % 64 = depth := by omega
  rw [levelSize, UInt64.toNat_shiftLeft, UInt64.toNat_ofNat', place, UInt64.toNat_one,
    Nat.one_shiftLeft, Nat.mod_eq_of_lt small]

/-- A count cut off at the size of a level, told by numbers. -/
theorem toNat_min_levelSize {depth : Nat} (shallow : depth < 64) (count : UInt64) :
    (min count (levelSize depth)).toNat = min count.toNat (2 ^ depth) := by
  -- Either the count is within the level or the size of the level is, on both sides alike.
  have size := toNat_levelSize shallow
  by_cases within : count ≤ levelSize depth
  · have few : count.toNat ≤ 2 ^ depth := by simpa [UInt64.le_iff_toNat_le, size] using within
    rw [Nat.min_eq_left few]
    exact congrArg UInt64.toNat (if_pos within)
  · have many : 2 ^ depth ≤ count.toNat := by
      simpa [UInt64.le_iff_toNat_le, size] using Nat.le_of_lt (UInt64.not_le.mp within)
    rw [Nat.min_eq_right many, ← size]
    exact congrArg UInt64.toNat (if_neg within)

namespace Gindex

/-- A position is the size of its level plus its number there. -/
theorem toNat_ofDepthIndex {depth : Nat} {index : UInt64} (shallow : depth < 64)
    (within : index.toNat < 2 ^ depth) :
    (ofDepthIndex depth index).toNat = 2 ^ depth + index.toNat := by
  -- The leading one and the number share no bit, so joining them adds them.
  have joined := Nat.two_pow_add_eq_or_of_lt within 1
  rw [Nat.mul_one] at joined
  rw [ofDepthIndex, UInt64.toNat_or, toNat_levelSize shallow, joined]

/-- A position lies at the depth of its level. -/
theorem depth_ofDepthIndex {depth : Nat} {index : UInt64} (shallow : depth < 64)
    (within : index.toNat < 2 ^ depth) : (ofDepthIndex depth index).depth = depth := by
  -- The number is too small to reach the place above the leading one.
  rw [Gindex.depth, toNat_ofDepthIndex shallow within, Nat.log2_eq_iff (by omega)]
  rw [Nat.pow_succ]
  omega

/-- The position that names none is not one of a level. -/
theorem ofDepthIndex_ne_zero {depth : Nat} {index : UInt64} (shallow : depth < 64)
    (within : index.toNat < 2 ^ depth) : ofDepthIndex depth index ≠ 0 := by
  intro zero
  -- The leading one alone keeps a position away from zero.
  have number := toNat_ofDepthIndex shallow within
  have positive : 0 < 2 ^ depth := Nat.two_pow_pos depth
  rw [zero] at number
  simp at number
  omega

/-- The path of a position is made of the turns told by its number. -/
theorem path_ofDepthIndex {depth : Nat} {index : UInt64} (shallow : depth < 64)
    (within : index.toNat < 2 ^ depth) :
    (ofDepthIndex depth index).path = turnsTo depth index.toNat := by
  rw [path, depth_ofDepthIndex shallow within, toNat_ofDepthIndex shallow within]
  -- The leading one stands above all bits that the path reads.
  exact turnsTo_two_pow_add depth index.toNat

/-- The number of a position within its level is the one it was made from. -/
theorem indexAtDepth_ofDepthIndex {depth : Nat} {index : UInt64} (shallow : depth < 64)
    (within : index.toNat < 2 ^ depth) : (ofDepthIndex depth index).indexAtDepth = index := by
  have small : 2 ^ depth < 2 ^ 64 := Nat.pow_lt_pow_right (by decide) shallow
  apply UInt64.toNat_inj.mp
  apply Nat.eq_of_testBit_eq
  intro place
  -- The mask has every bit of a word but the leading one of the position.
  have mask : (~~~levelSize depth).toNat.testBit place
      = (decide (place < 64) && !decide (depth = place)) := by
    have inverse : (~~~levelSize depth).toNat = 2 ^ 64 - (2 ^ depth + 1) := by
      rw [UInt64.toNat_not, toNat_levelSize shallow, UInt64.size]
      omega
    rw [inverse, Nat.testBit_two_pow_sub_succ small, Nat.testBit_two_pow]
  rw [indexAtDepth, depth_ofDepthIndex shallow within, UInt64.toNat_and, Nat.testBit_and,
    toNat_ofDepthIndex shallow within, mask]
  -- The mask clears the leading one, keeps the bits below it, and finds none above it.
  rcases Nat.lt_trichotomy place depth with below | same | above
  · rw [Nat.testBit_two_pow_add_gt below]
    simp [show place < 64 by omega, show depth ≠ place by omega]
  · subst same
    simp [Nat.testBit_lt_two_pow within]
  · have room : 2 ^ (depth + 1) ≤ 2 ^ place := Nat.pow_le_pow_right (by decide) above
    rw [Nat.pow_succ] at room
    rw [Nat.testBit_lt_two_pow (show 2 ^ depth + index.toNat < 2 ^ place by omega),
      Nat.testBit_lt_two_pow (show index.toNat < 2 ^ place by omega)]
    simp

/-- A position has a turn for each level below the root. -/
@[simp] theorem length_path (gindex : Gindex) : gindex.path.length = gindex.depth := by
  simp [path]

/-- Going up halves the number of a position. -/
theorem toNat_parent (gindex : Gindex) : gindex.parent.toNat = gindex.toNat / 2 := by
  simp [parent, UInt64.toNat_shiftRight, Nat.shiftRight_eq_div_pow]

/-- A position below the root lies one level below its parent. -/
theorem depth_parent {gindex : Gindex} (below : 0 < gindex.depth) :
    gindex.depth = gindex.parent.depth + 1 := by
  -- Halving a number of at least two takes one from its logarithm.
  rw [depth, Nat.log2_def] at below ⊢
  rw [depth, toNat_parent]
  split
  · rfl
  · rename_i small
    simp [small] at below

/-- Left children have even numbers. -/
theorem isLeft_eq (gindex : Gindex) : gindex.isLeft = !gindex.toNat.testBit 0 := by
  have bit : gindex &&& 1 = 0 ↔ gindex.toNat % 2 = 0 := by
    rw [← UInt64.toNat_inj, UInt64.toNat_and, UInt64.toNat_one, Nat.and_one_is_mod]
    rfl
  rw [Nat.testBit_zero, isLeft, Bool.eq_iff_iff]
  simp [bit]

/-- From the end, the turns to a position are its own and then those to its parent. -/
theorem reverse_path {gindex : Gindex} (below : 0 < gindex.depth) :
    gindex.path.reverse = (!gindex.isLeft) :: gindex.parent.path.reverse := by
  simp only [path, List.map_reverse, List.reverse_reverse]
  -- The lowest bit is the last turn, and halving moves every other bit down by one place.
  rw [depth_parent below, List.range_succ_eq_map, List.map_cons, List.map_map, isLeft_eq,
    Bool.not_not]
  congr 1
  apply List.map_congr_left
  intro place _
  rw [Function.comp_apply, Nat.testBit_succ, toNat_parent]

/-- The turns to a position are those to its parent and then its own. -/
theorem path_eq_parent {gindex : Gindex} (below : 0 < gindex.depth) :
    gindex.path = gindex.parent.path ++ [!gindex.isLeft] := by
  rw [← List.reverse_inj, reverse_path below, List.reverse_append, List.reverse_singleton,
    List.singleton_append]

/-- A position below the root has a parent. -/
theorem parent_ne_zero {gindex : Gindex} (below : 0 < gindex.depth) : gindex.parent ≠ 0 := by
  intro none
  have half := congrArg UInt64.toNat none
  rw [toNat_parent, UInt64.toNat_zero] at half
  -- Only the numbers zero and one are halved to zero, and both have depth zero.
  have small : gindex.toNat < 2 := by omega
  have shallow : gindex.toNat.log2 = 0 := by
    rw [Nat.log2_def, if_neg (by omega)]
  rw [depth, shallow] at below
  exact Nat.lt_irrefl 0 below

/-- A position lies at a depth below 64. -/
theorem depth_lt (gindex : Gindex) : gindex.depth < 64 := by
  by_cases zero : gindex.toNat = 0
  · simp [depth, zero]
  · exact (Nat.log2_lt zero).mpr gindex.toNat_lt

/-- A position has a number on its level, from which it is made. -/
theorem exists_ofDepthIndex {gindex : Gindex} (nonzero : gindex ≠ 0) :
    ∃ index : UInt64, index.toNat < 2 ^ gindex.depth ∧
      gindex = ofDepthIndex gindex.depth index := by
  have positive := toNat_ne_zero nonzero
  have lower : 2 ^ gindex.depth ≤ gindex.toNat := Nat.log2_self_le positive
  have upper : gindex.toNat < 2 ^ (gindex.depth + 1) := Nat.lt_log2_self
  rw [Nat.pow_succ] at upper
  have bounded := gindex.toNat_lt
  -- The number is what is left of the position without its leading one.
  have number : (UInt64.ofNat (gindex.toNat - 2 ^ gindex.depth)).toNat =
      gindex.toNat - 2 ^ gindex.depth := by
    rw [UInt64.toNat_ofNat', Nat.mod_eq_of_lt (by omega)]
  refine ⟨UInt64.ofNat (gindex.toNat - 2 ^ gindex.depth), by omega, UInt64.toNat_inj.mp ?_⟩
  rw [toNat_ofDepthIndex gindex.depth_lt (by omega), number]
  omega

/-- The number of a position is what its level adds to the leading one. -/
theorem toNat_indexAtDepth {gindex : Gindex} (nonzero : gindex ≠ 0) :
    gindex.indexAtDepth.toNat < 2 ^ gindex.depth ∧
      gindex.toNat = 2 ^ gindex.depth + gindex.indexAtDepth.toNat := by
  -- Every position is made from a level and a number, and the number is read back from it.
  obtain ⟨index, within, made⟩ := exists_ofDepthIndex nonzero
  have number : gindex.indexAtDepth = index := by
    rw [made]
    exact indexAtDepth_ofDepthIndex gindex.depth_lt within
  rw [number]
  refine ⟨within, ?_⟩
  rw [← toNat_ofDepthIndex gindex.depth_lt within, ← made]

/--
Two positions are joined, where the levels of both fit in a word, to the one whose digits are those
of the first and then those of the second without its leading one.
-/
theorem concat_eq_some {base child joined : Gindex} :
    base.concat child = some joined ↔
      base ≠ 0 ∧ child ≠ 0 ∧ base.depth + child.depth ≤ 63 ∧
        joined.toNat = 2 ^ child.depth * base.toNat + child.indexAtDepth.toNat := by
  rw [concat]
  split
  · rename_i missing
    simp only [reduceCtorEq, false_iff]
    exact fun found => missing.elim found.1 found.2.1
  rename_i both
  split
  · rename_i deep
    simp only [reduceCtorEq, false_iff]
    exact fun found => by omega
  · rename_i shallow
    obtain ⟨first, second⟩ := not_or.mp both
    obtain ⟨within, _⟩ := toNat_indexAtDepth second
    -- The shift loses no digit, and leaves room for the number of the second position.
    have place : (UInt64.ofNat child.depth).toNat % 64 = child.depth := by
      have := child.depth_lt
      rw [UInt64.toNat_ofNat']
      omega
    have small : base.toNat * 2 ^ child.depth < 2 ^ 64 := by
      have upper : base.toNat < 2 ^ (base.depth + 1) := Nat.lt_log2_self
      calc base.toNat * 2 ^ child.depth
          < 2 ^ (base.depth + 1) * 2 ^ child.depth :=
            Nat.mul_lt_mul_of_pos_right upper (Nat.two_pow_pos _)
        _ = 2 ^ (base.depth + 1 + child.depth) := (Nat.pow_add ..).symm
        _ ≤ 2 ^ 64 := Nat.pow_le_pow_right (by decide) (by omega)
    have value : (base <<< UInt64.ofNat child.depth ||| child.indexAtDepth).toNat =
        2 ^ child.depth * base.toNat + child.indexAtDepth.toNat := by
      rw [UInt64.toNat_or, UInt64.toNat_shiftLeft, place, Nat.shiftLeft_eq,
        Nat.mod_eq_of_lt small, Nat.mul_comm, Nat.two_pow_add_eq_or_of_lt within]
    rw [Option.some.injEq, ← value, UInt64.toNat_inj]
    exact ⟨fun same => ⟨first, second, by omega, same.symm⟩, fun found => found.2.2.2.symm⟩

/-- Two positions are not joined where one of them is zero, or a word does not reach as deep. -/
theorem concat_eq_none {base child : Gindex} :
    base.concat child = none ↔ base = 0 ∨ child = 0 ∨ 63 < base.depth + child.depth := by
  -- A position of zero is refused first, and only then the depths are added.
  rw [concat, ← or_assoc]
  split
  · rename_i missing
    simp [missing]
  · rename_i both
    simp [both]

section Concat

variable {base child joined : Gindex}

/-- A joined position is not zero. -/
theorem concat_ne_zero (found : base.concat child = some joined) : joined ≠ 0 := by
  -- The leading one of the base is shifted, but it stays within the word.
  obtain ⟨first, _, _, value⟩ := concat_eq_some.mp found
  rintro rfl
  have positive := Nat.pos_of_ne_zero (toNat_ne_zero first)
  have scaled := Nat.mul_pos (Nat.two_pow_pos child.depth) positive
  rw [UInt64.toNat_zero] at value
  omega

/-- A joined position lies as deep as both positions together. -/
theorem depth_concat (found : base.concat child = some joined) :
    joined.depth = base.depth + child.depth := by
  obtain ⟨first, second, _, value⟩ := concat_eq_some.mp found
  obtain ⟨within, _⟩ := toNat_indexAtDepth second
  have lower : 2 ^ base.depth ≤ base.toNat := Nat.log2_self_le (toNat_ne_zero first)
  have upper : base.toNat + 1 ≤ 2 ^ (base.depth + 1) := Nat.lt_log2_self
  -- Both bounds of the first position are scaled by the levels of the second.
  have least := Nat.mul_le_mul_left (2 ^ child.depth) lower
  have most := Nat.mul_le_mul_left (2 ^ child.depth) upper
  have nonzero := toNat_ne_zero (concat_ne_zero found)
  rw [depth, Nat.log2_eq_iff nonzero, Nat.add_comm base.depth, Nat.add_assoc, Nat.pow_add,
    Nat.pow_add, value]
  rw [Nat.mul_add, Nat.mul_one] at most
  omega

/-- The turns to a joined position are those to the first and then those to the second. -/
theorem path_concat (found : base.concat child = some joined) :
    joined.path = base.path ++ child.path := by
  obtain ⟨_, second, _, value⟩ := concat_eq_some.mp found
  obtain ⟨within, own⟩ := toNat_indexAtDepth second
  have bits := Nat.testBit_two_pow_mul_add base.toNat within
  rw [path, depth_concat found, Nat.add_comm, List.range_add, List.reverse_append, List.map_append,
    ← List.map_reverse, List.map_map, path, path, value]
  congr 1
  · -- The upper digits are those of the first position.
    apply List.map_congr_left
    intro place _
    rw [Function.comp_apply, bits, if_neg (by omega), Nat.add_sub_cancel_left]
  · -- The lower ones are those of the second, whose leading one the path does not read.
    apply List.map_congr_left
    intro place member
    have below : place < child.depth := by simpa using member
    rw [bits, if_pos below, own, Nat.testBit_two_pow_add_gt below]

end Concat

/-- A position is made again from its depth and its number there. -/
theorem ofDepthIndex_indexAtDepth {gindex : Gindex} (nonzero : gindex ≠ 0) :
    ofDepthIndex gindex.depth gindex.indexAtDepth = gindex := by
  obtain ⟨within, value⟩ := toNat_indexAtDepth nonzero
  apply UInt64.toNat_inj.mp
  rw [toNat_ofDepthIndex gindex.depth_lt within, value]

/-- The turns to a position are told by its number on the level of its depth. -/
theorem path_eq_turnsTo {gindex : Gindex} (nonzero : gindex ≠ 0) :
    gindex.path = turnsTo gindex.depth gindex.indexAtDepth.toNat := by
  obtain ⟨within, _⟩ := toNat_indexAtDepth nonzero
  rw [← path_ofDepthIndex gindex.depth_lt within, ofDepthIndex_indexAtDepth nonzero]

/-- Positions that are reached by the same turns are the same. -/
theorem eq_of_path {first second : Gindex} (nonzero : first ≠ 0) (also : second ≠ 0)
    (same : first.path = second.path) : first = second := by
  -- As many turns mean the same depth, and on one level the turns tell the number.
  have deep : first.depth = second.depth := by
    rw [← length_path, same, length_path]
  obtain ⟨within, _⟩ := toNat_indexAtDepth nonzero
  obtain ⟨inside, _⟩ := toNat_indexAtDepth also
  rw [path_eq_turnsTo nonzero, path_eq_turnsTo also, ← deep] at same
  have number := UInt64.toNat_inj.mp (eq_of_turnsTo within (deep ▸ inside) same)
  rw [← ofDepthIndex_indexAtDepth nonzero, ← ofDepthIndex_indexAtDepth also, deep, number]

section Paths

variable {first second third joined : Gindex}

/-- Two positions are joined to the one that is reached by the turns of both. -/
theorem concat_eq_some_iff_path : first.concat second = some joined ↔
    first ≠ 0 ∧ second ≠ 0 ∧ joined ≠ 0 ∧ joined.path = first.path ++ second.path := by
  constructor
  · intro found
    obtain ⟨left, right, _⟩ := concat_eq_some.mp found
    exact ⟨left, right, concat_ne_zero found, path_concat found⟩
  · intro ⟨left, right, nonzero, turns⟩
    -- A word reaches as deep as the joined position, so the two positions can be joined.
    have deep : joined.depth = first.depth + second.depth := by
      rw [← length_path, turns, List.length_append, length_path, length_path]
    have shallow := joined.depth_lt
    cases other : first.concat second with
    | none =>
      rcases concat_eq_none.mp other with zero | zero | beyond
      · exact absurd zero left
      · exact absurd zero right
      · omega
    | some found =>
      have same := eq_of_path (concat_ne_zero other) nonzero (by rw [path_concat other, turns])
      rw [same]

/-- Positions that lie within the depth of a word together are joined. -/
theorem exists_concat (left : first ≠ 0) (right : second ≠ 0)
    (shallow : first.depth + second.depth < 64) : ∃ joined, first.concat second = some joined := by
  -- None of the three reasons to refuse holds.
  apply Option.ne_none_iff_exists'.mp
  intro none
  rcases concat_eq_none.mp none with zero | zero | beyond
  · exact left zero
  · exact right zero
  · omega

/-- Turns that lead to a position together are no more than a word reaches deep. -/
theorem depth_add_lt_of_path
    (all : joined.path = first.path ++ (second.path ++ third.path)) :
    first.depth + second.depth + third.depth < 64 := by
  have deep := congrArg List.length all
  simp only [List.length_append, length_path] at deep
  have shallow := joined.depth_lt
  omega

/-- Three positions are joined from the left to the one that is reached by all their turns. -/
theorem concat_bind_concat : (first.concat second).bind (·.concat third) = some joined ↔
    first ≠ 0 ∧ second ≠ 0 ∧ third ≠ 0 ∧ joined ≠ 0 ∧
      joined.path = first.path ++ (second.path ++ third.path) := by
  simp only [Option.bind_eq_some_iff, concat_eq_some_iff_path]
  constructor
  · intro ⟨inner, ⟨left, middle, _, turns⟩, _, right, nonzero, all⟩
    exact ⟨left, middle, right, nonzero, by rw [all, turns, List.append_assoc]⟩
  · intro ⟨left, middle, right, nonzero, all⟩
    -- The first two are joined no deeper than the whole.
    have shallow := depth_add_lt_of_path all
    obtain ⟨inner, found⟩ := exists_concat left middle (by omega)
    have turns := path_concat found
    exact ⟨inner, concat_eq_some_iff_path.mp found, concat_ne_zero found, right, nonzero,
      by rw [all, turns, List.append_assoc]⟩

/-- Three positions are joined from the right to the one that is reached by all their turns. -/
theorem bind_concat_concat : (second.concat third).bind (first.concat ·) = some joined ↔
    first ≠ 0 ∧ second ≠ 0 ∧ third ≠ 0 ∧ joined ≠ 0 ∧
      joined.path = first.path ++ (second.path ++ third.path) := by
  -- Backwards, the inner two are joined since together they are no deeper than all three.
  simp only [Option.bind_eq_some_iff, concat_eq_some_iff_path]
  constructor
  · intro ⟨inner, ⟨middle, right, _, turns⟩, left, _, nonzero, all⟩
    exact ⟨left, middle, right, nonzero, by rw [all, turns]⟩
  · intro ⟨left, middle, right, nonzero, all⟩
    have shallow := depth_add_lt_of_path all
    obtain ⟨inner, found⟩ := exists_concat middle right (by omega)
    exact ⟨inner, concat_eq_some_iff_path.mp found, left, concat_ne_zero found, nonzero,
      by rw [all, path_concat found]⟩

/-- It does not matter which two of three positions are joined first. -/
theorem concat_assoc (first second third : Gindex) :
    (first.concat second).bind (·.concat third) =
      (second.concat third).bind (first.concat ·) := by
  apply Option.ext
  intro joined
  rw [concat_bind_concat, bind_concat_concat]

/-- No turns lead to the root. -/
@[simp] theorem path_root : root.path = [] := rfl

/-- Joining a position to the root leaves it as it is. -/
theorem root_concat (nonzero : first ≠ 0) : root.concat first = some first :=
  concat_eq_some_iff_path.mpr ⟨by decide, nonzero, nonzero, rfl⟩

/-- Joining the root to a position leaves it as it is. -/
theorem concat_root (nonzero : first ≠ 0) : first.concat root = some first :=
  concat_eq_some_iff_path.mpr ⟨nonzero, by decide, nonzero, by simp⟩

/-- Below the left child of the root a position keeps its number, one level further down. -/
theorem two_concat_ofDepthIndex {depth : Nat} {index : UInt64} (shallow : depth + 1 < 64)
    (within : index.toNat < 2 ^ depth) :
    concat 2 (ofDepthIndex depth index) = some (ofDepthIndex (depth + 1) index) := by
  -- A number below the half of the wider level has a first turn to the left.
  have wider : index.toNat < 2 ^ (depth + 1) := by
    rw [Nat.pow_succ]
    omega
  have lower := Nat.lt_of_succ_lt shallow
  refine concat_eq_some_iff_path.mpr ⟨by decide, ofDepthIndex_ne_zero lower within,
    ofDepthIndex_ne_zero shallow wider, ?_⟩
  rw [path_ofDepthIndex shallow wider, path_ofDepthIndex lower within, turnsTo_succ_of_lt within]
  rfl

end Paths

end Gindex

end Ssz
