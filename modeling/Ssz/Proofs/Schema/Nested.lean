import Ssz.Proofs.Schema.Overflow

/-! The rules of schemas: one is accepted exactly if every schema that occurs in it keeps them. -/

namespace Ssz

namespace Schema

/-- A schema occurs in another one at some level of nesting, or is that one. -/
inductive OccursIn (inner : Schema) : Schema → Prop where
  | whole : OccursIn inner inner
  | vector {element : Schema} {length : UInt64} (within : OccursIn inner element) :
    OccursIn inner (vector element length)
  | list {element : Schema} {maxLength : UInt64} (within : OccursIn inner element) :
    OccursIn inner (list element maxLength)
  | container {fields : List Field} {field : Field} (member : field ∈ fields)
    (within : OccursIn inner field.schema) : OccursIn inner (container fields)
  | union {variants : List (Option Schema)} {variant : Schema} (member : some variant ∈ variants)
    (within : OccursIn inner variant) : OccursIn inner (union variants)

/-- The parameters of a kind are what they may be. -/
def HasShape : Schema → Prop
  | scalar _ => True
  | vector _ length | list _ length | bitvector length | bitlist length => 0 < length.toNat
  | container fields => fields ≠ [] ∧ (fields.map Field.name).Nodup
  | union variants =>
    variants ≠ [] ∧ variants.length ≤ maxUnionVariants ∧
      (∀ selector : Nat, variants[selector]? = some none → selector = 0) ∧ variants ≠ [none]

/-- A schema keeps the rules of its kind, whatever may be said of those that occur in it. -/
structure KeepsRules (schema : Schema) : Prop where
  shape : schema.HasShape
  depth : schema.depth ≤ maxChunkDepth
  size : schema.minSize ≤ maxWord

/-- A length is refused just where it is zero. -/
theorem length_eq_ok {length : UInt64} {fault : SchemaError} :
    (if length = 0 then .error fault else .ok () : Except SchemaError Unit) = .ok () ↔
      0 < length.toNat := by
  rw [Nat.pos_iff_ne_zero, ne_eq, ← UInt64.toNat_zero, UInt64.toNat_inj]
  split <;> simp [*]

/-- No duplicate is found where names are all different, and none of them is one seen before. -/
theorem duplicateName?_eq_none {seen : List String} {fields : List Field} :
    duplicateName? seen fields = none ↔
      (∀ field ∈ fields, field.name ∉ seen) ∧ (fields.map Field.name).Nodup := by
  refine ⟨nodup_of_duplicateName?, ?_⟩
  induction fields generalizing seen with
  | nil => exact fun _ => rfl
  | cons field rest ih =>
    rw [List.forall_mem_cons, List.map_cons, List.nodup_cons, duplicateName?]
    rintro ⟨⟨fresh, others⟩, new, distinct⟩
    rw [if_neg fresh]
    refine ih ⟨fun other member => ?_, distinct⟩
    -- The names seen grow by this one, which no later field has.
    rw [List.mem_cons, not_or]
    exact ⟨fun same => new (List.mem_map.mpr ⟨other, member, same⟩), others other member⟩

/-- No later variant is absent just where an absent one can only be the first. -/
theorem findIdx?_tail_eq_none {variants : List (Option Schema)} :
    variants.tail.findIdx? Option.isNone = none ↔
      ∀ selector : Nat, variants[selector]? = some none → selector = 0 := by
  -- A place in the tail is one place further on in the whole list, so it is not the first.
  rw [List.findIdx?_eq_none_iff]
  cases variants with
  | nil => simp
  | cons first rest =>
    constructor
    · intro present selector absent
      cases selector with
      | zero => rfl
      | succ selector => cases present none (List.mem_of_getElem? absent)
    · intro only variant member
      obtain ⟨selector, here⟩ := List.getElem?_of_mem member
      cases variant with
      | none => cases only (selector + 1) here
      | some => rfl

/-- The absent variant stands alone just where there is one variant and the first is absent. -/
theorem only_absent_iff {variants : List (Option Schema)} :
    ¬ (variants.length = 1 ∧ variants.head?.join.isNone = true) ↔ variants ≠ [none] := by
  refine not_congr ⟨fun ⟨one, absent⟩ => ?_, fun same => by simp [same]⟩
  obtain ⟨variant, rfl⟩ := List.length_eq_one_iff.mp one
  cases variant with
  | none => rfl
  | some => cases absent

/-- The parameters of a kind pass their check exactly if they are what they may be. -/
theorem checkShape_eq_ok {schema : Schema} : schema.checkShape = .ok () ↔ schema.HasShape := by
  cases schema with
  | scalar => exact iff_of_true rfl trivial
  | vector | list | bitvector | bitlist => exact length_eq_ok
  | container fields =>
    have distinct := @duplicateName?_eq_none [] fields
    rw [checkShape, HasShape]
    cases fields with
    | nil => simp
    | cons => cases found : duplicateName? [] _ <;> simp_all
  | union variants =>
    rw [checkShape, HasShape, ← findIdx?_tail_eq_none, ← only_absent_iff]
    -- The checks come one after the other, and each is of one of the conditions.
    split
    · rename_i empty
      simp [List.isEmpty_iff.mp empty]
    split
    · rename_i many
      simp [Nat.not_le.mpr many]
    rename_i some bounded
    have some : variants ≠ [] := fun empty => some (List.isEmpty_iff.mpr empty)
    cases found : variants.tail.findIdx? Option.isNone with
    | some position => simp
    | none => simp [some, Nat.le_of_not_lt bounded]

/-- A depth passes its check exactly if it is one that trees may have. -/
theorem checkCapacity_eq_ok {schema : Schema} :
    schema.checkCapacity = .ok () ↔ schema.depth ≤ maxChunkDepth := by
  simp [checkCapacity]

/-- A schema passes its checks exactly if it keeps the rules of its kind. -/
theorem check_eq_ok_iff {schema : Schema} : schema.check = .ok () ↔ schema.KeepsRules := by
  -- The size of a schema is told only for one of the right shape, so the shape is settled first.
  rw [check_eq_ok]
  constructor
  · intro ⟨shape, capacity, size⟩
    exact ⟨checkShape_eq_ok.mp shape, checkCapacity_eq_ok.mp capacity,
      (checkSize_eq_ok shape).mp size⟩
  · intro ⟨shape, depth, size⟩
    have shape := checkShape_eq_ok.mpr shape
    exact ⟨shape, checkCapacity_eq_ok.mpr depth, (checkSize_eq_ok shape).mpr size⟩

/-- The parameters of a kind exceed no limit, whatever they are. -/
theorem checkShape_ne_limit {schema : Schema} {exceeded : LimitError} :
    schema.checkShape ≠ .error (.limit exceeded) := by
  cases schema <;> simp only [checkShape] <;> (repeat' split) <;> simp

/-- The check of a schema exceeds a limit just where an offset leaves a word, and all else is fine. -/
theorem check_eq_limit_iff {schema : Schema} (members : schema.MembersAccepted) :
    (∃ exceeded, schema.check = .error (.limit exceeded)) ↔
      schema.HasShape ∧ schema.depth ≤ maxChunkDepth ∧ schema.OffsetOverflows := by
  constructor
  · rintro ⟨exceeded, failed⟩
    rw [check, bind_eq_error] at failed
    rcases failed with parameters | ⟨_, shape, failed⟩
    · exact absurd parameters checkShape_ne_limit
    rcases bind_eq_error.mp failed with capacity | ⟨_, capacity, size⟩
    · unfold checkCapacity at capacity
      split at capacity <;> cases capacity
    refine ⟨checkShape_eq_ok.mp shape, checkCapacity_eq_ok.mp capacity, ?_⟩
    -- A least size that is no word is reported without a limit where no offset leaves one.
    by_contra offsets
    rcases Nat.lt_or_ge maxWord schema.minSize with large | small
    · rw [checkSize_of_total members large offsets] at size
      cases size
    · rw [(checkSize_eq_ok shape).mpr small] at size
      cases size
  · rintro ⟨shape, depth, offsets⟩
    obtain ⟨size, _, large⟩ := checkSize_of_offset members offsets
    refine ⟨.sizeTooLarge size, ?_⟩
    rw [check, checkShape_eq_ok.mpr shape, ok_bind, checkCapacity_eq_ok.mpr depth, ok_bind, large]

/-- What occurs in an accepted schema was accepted itself. -/
theorem Accepted.of_occursIn {inner schema : Schema} (occurs : inner.OccursIn schema)
    (accepted : schema.Accepted) : inner.Accepted := by
  induction occurs with
  | whole => exact accepted
  | vector _ ih | list _ ih => exact ih accepted.1
  | container member _ ih => exact ih (accepted.1.of_mem member)
  | union member _ ih => exact ih (accepted.1.of_mem member)

end Schema

mutual

/-- A schema is accepted if all that occurs in it keeps the rules of its kind. -/
theorem Schema.accepted_of_occursIn : (schema : Schema) →
    (∀ inner : Schema, inner.OccursIn schema → inner.KeepsRules) → schema.Accepted
  -- What occurs in a member occurs in the whole, and the whole occurs in itself.
  | .scalar _, _ => trivial
  | .vector element _, keep =>
    ⟨element.accepted_of_occursIn fun inner within => keep inner (.vector within),
      check_eq_ok_iff.mpr (keep _ .whole)⟩
  | .list element _, keep =>
    ⟨element.accepted_of_occursIn fun inner within => keep inner (.list within),
      check_eq_ok_iff.mpr (keep _ .whole)⟩
  | .bitvector _, keep | .bitlist _, keep => check_eq_ok_iff.mpr (keep _ .whole)
  | .container fields, keep =>
    ⟨acceptedFields_of_occursIn fields fun _ member inner within =>
      keep inner (.container member within), check_eq_ok_iff.mpr (keep _ .whole)⟩
  | .union variants, keep =>
    ⟨acceptedVariants_of_occursIn variants fun _ member inner within =>
      keep inner (.union member within), check_eq_ok_iff.mpr (keep _ .whole)⟩

/-- Fields have accepted schemas if all that occurs in these keeps the rules of its kind. -/
theorem Schema.acceptedFields_of_occursIn : (fields : List Field) →
    (∀ field ∈ fields, ∀ inner : Schema, inner.OccursIn field.schema → inner.KeepsRules) →
      Schema.AcceptedFields fields
  | [], _ => trivial
  | ⟨_, schema⟩ :: rest, keep =>
    have later := List.forall_mem_cons.mp keep
    ⟨schema.accepted_of_occursIn later.1, Schema.acceptedFields_of_occursIn rest later.2⟩

/-- Variants have accepted schemas if all that occurs in these keeps the rules of its kind. -/
theorem Schema.acceptedVariants_of_occursIn : (variants : List (Option Schema)) →
    (∀ variant : Schema, some variant ∈ variants →
      ∀ inner : Schema, inner.OccursIn variant → inner.KeepsRules) →
        Schema.AcceptedVariants variants
  -- Nothing occurs in the empty variant, so it has no rules to keep.
  | [], _ => trivial
  | none :: rest, keep =>
    Schema.acceptedVariants_of_occursIn rest fun _ member => keep _ (List.mem_cons_of_mem _ member)
  | some schema :: rest, keep =>
    ⟨schema.accepted_of_occursIn (keep schema List.mem_cons_self),
      Schema.acceptedVariants_of_occursIn rest fun _ member =>
        keep _ (List.mem_cons_of_mem _ member)⟩

end

/-- A schema is accepted exactly if all that occurs in it keeps the rules of its kind. -/
theorem Schema.accepted_iff_occursIn {schema : Schema} : schema.Accepted ↔
    ∀ inner : Schema, inner.OccursIn schema → inner.KeepsRules :=
  ⟨fun accepted _ occurs => check_eq_ok_iff.mp (accepted.of_occursIn occurs).check,
    schema.accepted_of_occursIn⟩

end Ssz
