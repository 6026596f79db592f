import Ssz.Proofs.Schema.Accepted

/-! Size checks: a schema is accepted when its least size is a word, and how it is refused else. -/

namespace Ssz.Schema

/-- A schema whose members have been accepted before. -/
def MembersAccepted : Schema → Prop
  | vector element _ | list element _ => element.Accepted
  | container fields => AcceptedFields fields
  | union variants => AcceptedVariants variants
  | scalar _ | bitvector _ | bitlist _ => True

/-- A schema is accepted exactly when its members are and its own checks pass. -/
theorem accepted_iff {schema : Schema} :
    schema.Accepted ↔ schema.MembersAccepted ∧ schema.check = .ok () := by
  -- A scalar passes its check always, and bit sequences have no members to accept.
  cases schema with
  | scalar type => exact ⟨fun accepted => ⟨trivial, accepted.check⟩, fun _ => trivial⟩
  | vector => exact Iff.rfl
  | list => exact Iff.rfl
  | bitvector => exact ⟨fun accepted => ⟨trivial, accepted⟩, And.right⟩
  | bitlist => exact ⟨fun accepted => ⟨trivial, accepted⟩, And.right⟩
  | container => exact Iff.rfl
  | union => exact Iff.rfl

/--
An offset or a selector leaves a word when it is added to the least size of a member, where
everything that is added up before fits.
-/
def OffsetOverflows : Schema → Prop
  | vector element _ => ¬ element.isFixedSize ∧ maxWord < bytesPerOffset + element.minSize
  | container fields =>
    ∃ before field after, fields = before ++ field :: after ∧
      (fieldSizes before).least ≤ maxWord ∧ ¬ field.schema.isFixedSize ∧
        maxWord < bytesPerOffset + field.schema.minSize
  | union variants => maxWord < bytesPerOffset + (leastVariant variants).getD 0
  | _ => False

/-- A part passes its check exactly when it is a word. -/
@[simp] theorem checkPart_eq_ok {size : Nat} : checkPart size = .ok () ↔ size ≤ maxWord := by
  simp [checkPart]

/-- A sum passes its check exactly when it is a word. -/
@[simp] theorem checkTotal_eq_ok {size : Nat} : checkTotal size = .ok () ↔ size ≤ maxWord := by
  simp [checkTotal]

/-- A part that is no word is refused for its own size. -/
theorem checkPart_of_lt {size : Nat} (large : maxWord < size) :
    checkPart size = .error (.limit (.sizeTooLarge size)) :=
  if_pos large

/-- A sum that is no word is refused without its size. -/
theorem checkTotal_of_lt {size : Nat} (large : maxWord < size) :
    checkTotal size = .error .sizeOverflow :=
  if_pos large

section Fields

variable {sum : Nat} {field : Field} {fields : List Field}

/-- The least sizes of fields add up. -/
theorem least_fieldSizes_cons (field : Field) (rest : List Field) :
    (fieldSizes (field :: rest)).least = field.schema.minPart + (fieldSizes rest).least := by
  obtain ⟨name, schema⟩ := field
  rw [fieldSizes, Sizes.add]
  split <;> rfl

/-- The sums of fields pass their checks exactly when the last one is a word. -/
theorem checkFieldSizes_eq_ok (small : sum ≤ maxWord) :
    checkFieldSizes sum fields = .ok () ↔ sum + (fieldSizes fields).least ≤ maxWord := by
  induction fields generalizing sum with
  | nil => simp [checkFieldSizes, fieldSizes, Sizes.ofFixed, small]
  | cons field rest ih =>
    rw [checkFieldSizes, least_fieldSizes_cons, ← Nat.add_assoc]
    simp only [check_bind_eq_ok, checkPart_eq_ok, checkTotal_eq_ok]
    -- The sums grow, so the last one bounds all that came before it.
    constructor
    · rintro ⟨_, total, rest⟩
      exact (ih total).mp rest
    · intro last
      have total : sum + field.schema.minPart ≤ maxWord := Nat.le_trans (Nat.le_add_right _ _) last
      exact ⟨Nat.le_trans (Nat.le_add_left _ _) total, total, (ih total).mpr last⟩

/-- A field whose part is no word ends the check, if the sum of those before it is a word. -/
theorem checkFieldSizes_of_part {before after : List Field}
    (fits : sum + (fieldSizes before).least ≤ maxWord) (part : maxWord < field.schema.minPart) :
    checkFieldSizes sum (before ++ field :: after) =
      .error (.limit (.sizeTooLarge field.schema.minPart)) := by
  -- The fields before are within the sum that is a word, so each of them passes.
  induction before generalizing sum with
  | nil => rw [List.nil_append, checkFieldSizes, checkPart_of_lt part, error_bind]
  | cons first rest ih =>
    rw [least_fieldSizes_cons] at fits
    rw [List.cons_append, checkFieldSizes, checkPart_eq_ok.mpr (by omega), ok_bind,
      checkTotal_eq_ok.mpr (by omega), ok_bind]
    exact ih (by omega)

/-- A sum that is no word is reported as such, unless a part was none before. -/
theorem checkFieldSizes_of_total (small : sum ≤ maxWord)
    (large : maxWord < sum + (fieldSizes fields).least)
    (parts : ∀ before field after, fields = before ++ field :: after →
      sum + (fieldSizes before).least ≤ maxWord → field.schema.minPart ≤ maxWord) :
    checkFieldSizes sum fields = .error .sizeOverflow := by
  induction fields generalizing sum with
  | nil => exact absurd small (Nat.not_le.mpr large)
  | cons field rest ih =>
    have own := parts [] field rest rfl small
    rw [least_fieldSizes_cons] at large
    rw [checkFieldSizes, checkPart_eq_ok.mpr own, ok_bind]
    by_cases total : maxWord < sum + field.schema.minPart
    · rw [checkTotal_of_lt total, error_bind]
    · -- The sum is still a word, so it is one of the later fields that leaves it.
      have total := Nat.le_of_not_lt total
      rw [checkTotal_eq_ok.mpr total, ok_bind]
      refine ih total (by omega) fun before other after split fits => ?_
      refine parts (field :: before) other after (by rw [split, List.cons_append]) ?_
      rw [least_fieldSizes_cons]
      omega

end Fields

section Members

variable {schema : Schema}

/-- A schema of the right shape passes the check of its size when its least size is a word. -/
theorem checkSize_eq_ok (shape : schema.checkShape = .ok ()) :
    schema.checkSize = .ok () ↔ schema.minSize ≤ maxWord := by
  cases schema with
  | vector element length =>
    -- A vector has at least one element, so the part of one is no larger than that of all.
    have some := length_pos_of_shape shape
    have part : element.minPart ≤ length.toNat * element.minPart := Nat.le_mul_of_pos_left _ some
    simp only [checkSize, check_bind_eq_ok, checkPart_eq_ok, checkTotal_eq_ok]
    exact ⟨And.right, fun total => ⟨Nat.le_trans part total, total⟩⟩
  | container fields =>
    have sums := @checkFieldSizes_eq_ok 0 fields (Nat.zero_le _)
    rwa [Nat.zero_add] at sums
  | union => exact checkPart_eq_ok
  | scalar | list | bitvector | bitlist => exact checkTotal_eq_ok

/-- A schema is accepted when its members are, it has the right shape, and its sizes are small. -/
theorem accepted_iff_minSize : schema.Accepted ↔ schema.MembersAccepted ∧
    schema.checkShape = .ok () ∧ schema.checkCapacity = .ok () ∧ schema.minSize ≤ maxWord := by
  -- For a schema of the right shape the check of the size is a bound on the least size.
  rw [accepted_iff, check_eq_ok]
  constructor
  · rintro ⟨members, shape, capacity, size⟩
    exact ⟨members, shape, capacity, (checkSize_eq_ok shape).mp size⟩
  · rintro ⟨members, shape, capacity, size⟩
    exact ⟨members, shape, capacity, (checkSize_eq_ok shape).mpr size⟩

/-- The least size of an accepted schema is a word. -/
theorem Accepted.minSize_le (accepted : schema.Accepted) : schema.minSize ≤ maxWord :=
  (accepted_iff_minSize.mp accepted).2.2.2

/-- A part of an accepted member that is no word is that of a varying member behind its offset. -/
theorem Accepted.maxWord_lt_minPart (accepted : schema.Accepted) :
    maxWord < schema.minPart ↔
      ¬ schema.isFixedSize ∧ maxWord < bytesPerOffset + schema.minSize := by
  cases own : schema.sizes.fixed with
  | none => simp [minPart, Sizes.part, isFixedSize, fixedSize, own, minSize]
  | some size =>
    -- A member of one size has that size for its least one, and no offset.
    have small := accepted.minSize_le
    simp only [minSize, least_eq_fixed schema size own] at small
    simp [minPart, Sizes.part, isFixedSize, fixedSize, own, small]

variable (members : schema.MembersAccepted)

include members

/-- Where no offset leaves a word, a least size that does is reported as too large. -/
theorem checkSize_of_total (large : maxWord < schema.minSize)
    (offsets : ¬ schema.OffsetOverflows) : schema.checkSize = .error .sizeOverflow := by
  cases schema with
  | vector element length =>
    have accepted : element.Accepted := members
    have part : ¬ maxWord < element.minPart := fun part =>
      offsets (accepted.maxWord_lt_minPart.mp part)
    rw [checkSize, checkPart_eq_ok.mpr (Nat.le_of_not_lt part), ok_bind]
    exact checkTotal_of_lt large
  | container fields =>
    refine checkFieldSizes_of_total (Nat.zero_le _) (by rwa [Nat.zero_add]) ?_
    intro before field after split fits
    -- An earlier field whose part is no word would be one whose offset leaves a word.
    apply Nat.le_of_not_lt
    intro part
    have inside : field ∈ fields := by simp [split]
    have accepted := AcceptedFields.of_mem members inside
    rw [Nat.zero_add] at fits
    exact offsets ⟨before, field, after, split, fits, accepted.maxWord_lt_minPart.mp part⟩
  | union variants => exact absurd large offsets
  | scalar | list | bitvector | bitlist => exact checkTotal_of_lt large

/-- An offset that leaves a word ends the check of the size at once. -/
theorem checkSize_of_offset (offset : schema.OffsetOverflows) :
    ∃ size, maxWord < size ∧ schema.checkSize = .error (.limit (.sizeTooLarge size)) := by
  -- The part that overflows is an element, a field behind fields that fit, or a variant.
  cases schema with
  | vector element length =>
    have accepted : element.Accepted := members
    have part := accepted.maxWord_lt_minPart.mpr offset
    exact ⟨_, part, by rw [checkSize, checkPart_of_lt part, error_bind]⟩
  | container fields =>
    obtain ⟨before, field, after, rfl, fits, offset⟩ := offset
    have inside : field ∈ before ++ field :: after := by simp
    have accepted := AcceptedFields.of_mem members inside
    have part := accepted.maxWord_lt_minPart.mpr offset
    exact ⟨_, part, checkFieldSizes_of_part (by rwa [Nat.zero_add]) part⟩
  | union variants => exact ⟨_, offset, checkPart_of_lt offset⟩
  | scalar | list | bitvector | bitlist => cases offset

end Members

end Ssz.Schema
