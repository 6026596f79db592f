import Ssz.Proofs.Checked
import Ssz.Schema.Build

/-! Accepted schemas: those that the constructors build, checked at every level of nesting. -/

namespace Ssz

mutual

/-- A schema whose own checks passed, and those of every schema nested in it. -/
def Schema.Accepted : Schema → Prop
  -- Inner schemas were accepted first, as schemas are built from within.
  | .scalar _ => True
  | .vector element length => element.Accepted ∧ (Schema.vector element length).check = .ok ()
  | .list element maxLength => element.Accepted ∧ (Schema.list element maxLength).check = .ok ()
  | .bitvector length => (Schema.bitvector length).check = .ok ()
  | .bitlist maxLength => (Schema.bitlist maxLength).check = .ok ()
  | .container fields =>
    Schema.AcceptedFields fields ∧ (Schema.container fields).check = .ok ()
  | .union variants => Schema.AcceptedVariants variants ∧ (Schema.union variants).check = .ok ()

/-- Fields that all have accepted schemas. -/
def Schema.AcceptedFields : List Field → Prop
  | [] => True
  | ⟨_, schema⟩ :: rest => schema.Accepted ∧ Schema.AcceptedFields rest

/-- Variants that all have accepted schemas, the empty variant apart. -/
def Schema.AcceptedVariants : List (Option Schema) → Prop
  | [] => True
  | none :: rest => Schema.AcceptedVariants rest
  | some schema :: rest => schema.Accepted ∧ Schema.AcceptedVariants rest

end

namespace Schema

/-- Every field of accepted ones has an accepted schema. -/
theorem AcceptedFields.of_mem {fields : List Field} (accepted : AcceptedFields fields)
    {field : Field} (member : field ∈ fields) : field.schema.Accepted := by
  -- The field is the first one or is found in the rest.
  induction fields with
  | nil => cases member
  | cons first rest ih =>
    obtain ⟨name, schema⟩ := first
    obtain ⟨head, tail⟩ := accepted
    rcases List.mem_cons.mp member with rfl | later
    · exact head
    · exact ih tail later

/-- Every variant of accepted ones has an accepted schema. -/
theorem AcceptedVariants.of_mem {variants : List (Option Schema)}
    (accepted : AcceptedVariants variants) {schema : Schema} (member : some schema ∈ variants) :
    schema.Accepted := by
  induction variants with
  | nil => cases member
  | cons first rest ih =>
    -- The empty variant has no schema to accept.
    cases first with
    | none =>
      rcases List.mem_cons.mp member with impossible | later
      · cases impossible
      · exact ih accepted later
    | some head =>
      rcases List.mem_cons.mp member with same | later
      · cases same
        exact accepted.1
      · exact ih accepted.2 later

/-- A schema passes its checks exactly when it passes each of them. -/
theorem check_eq_ok {schema : Schema} :
    schema.check = .ok () ↔
      schema.checkShape = .ok () ∧ schema.checkCapacity = .ok () ∧ schema.checkSize = .ok () := by
  -- The three checks run in order, and none of them looks at the result of another.
  simp only [check, check_bind_eq_ok]

/-- An accepted schema passes its own checks; scalars have none to fail. -/
theorem Accepted.check {schema : Schema} (accepted : schema.Accepted) : schema.check = .ok () := by
  -- Scalars have no check that could fail, and the others were accepted by their own check.
  cases schema with
  | scalar type => cases type <;> rfl
  | vector => exact accepted.2
  | list => exact accepted.2
  | bitvector => exact accepted
  | bitlist => exact accepted
  | container => exact accepted.2
  | union => exact accepted.2

/-- The type of roots, which is built without checks, would pass them. -/
theorem accepted_bytes32 : bytes32.Accepted :=
  ⟨trivial, rfl⟩

/-- A length that passes its check is not zero. -/
theorem length_pos_of_shape {length : UInt64} {fault : SchemaError}
    (shape : (if length = 0 then .error fault else .ok () : Except SchemaError Unit) = .ok ()) :
    0 < length.toNat := by
  split at shape
  · cases shape
  · rename_i some
    exact Nat.pos_of_ne_zero fun none => some (UInt64.toNat_inj.mp none)

/-- A union that passes the check of its shape numbers its variants by words. -/
theorem variants_of_shape {variants : List (Option Schema)}
    (shape : (union variants).checkShape = .ok ()) :
    variants ≠ [] ∧ variants.length ≤ maxUnionVariants := by
  -- The shape is refused without variants, and with more of them than selectors are allowed.
  simp only [checkShape] at shape
  split at shape
  · cases shape
  rename_i nonempty
  split at shape
  · cases shape
  rename_i bounded
  exact ⟨by simpa using nonempty, Nat.le_of_not_lt bounded⟩

/-- The selectors of an accepted union are small numbers. -/
theorem Accepted.variants_le {variants : List (Option Schema)}
    (accepted : (union variants).Accepted) : variants.length ≤ 128 :=
  (variants_of_shape (check_eq_ok.mp accepted.2).1).2

/-- No name is taken twice, nor from those seen before, where no duplicate is found. -/
theorem nodup_of_duplicateName? {seen : List String} {fields : List Field}
    (none : duplicateName? seen fields = none) :
    (∀ field ∈ fields, field.name ∉ seen) ∧ (fields.map Field.name).Nodup := by
  -- The names seen grow along the fields, so each name is compared with all before it.
  induction fields generalizing seen with
  | nil => simp
  | cons field rest ih =>
    rw [duplicateName?] at none
    split at none
    · cases none
    · rename_i fresh
      obtain ⟨others, distinct⟩ := ih none
      -- What is not among the names seen later is neither this one nor one seen before.
      simp only [List.mem_cons, not_or] at others
      simp only [List.forall_mem_cons, List.map_cons, List.nodup_cons, List.mem_map]
      refine ⟨⟨fresh, fun other member => (others other member).2⟩, ?_, distinct⟩
      intro ⟨other, member, same⟩
      exact (others other member).1 same

/-- The fields of an accepted container have different names. -/
theorem Accepted.nodup_names {fields : List Field}
    (accepted : (container fields).Accepted) : (fields.map Field.name).Nodup := by
  obtain ⟨shape, _⟩ := check_eq_ok.mp accepted.2
  -- The shape is refused when there are no fields, and then for the first duplicate.
  rw [checkShape] at shape
  split at shape
  · cases shape
  · split at shape
    · cases shape
    · rename_i none
      exact (nodup_of_duplicateName? none).2

/-- The content tree of an accepted schema is at most as deep as the greatest depth. -/
theorem Accepted.depth_le {schema : Schema} (accepted : schema.Accepted) : schema.depth ≤ 62 := by
  obtain ⟨_, capacity, _⟩ := check_eq_ok.mp accepted.check
  -- The check of the capacity refuses every greater depth.
  unfold checkCapacity at capacity
  split at capacity
  · cases capacity
  · rename_i shallow
    exact Nat.le_of_not_lt shallow

/-- The content tree of an accepted schema is shallow enough for its positions to be words. -/
theorem Accepted.depth_lt {schema : Schema} (accepted : schema.Accepted) : schema.depth < 64 :=
  Nat.lt_of_le_of_lt accepted.depth_le (by decide)

/-- The depth for a number of leaves is the least one with room for them. -/
theorem depthFor_le_iff {count depth : Nat} : depthFor count ≤ depth ↔ count ≤ 2 ^ depth := by
  have some := Nat.two_pow_pos depth
  unfold depthFor
  split
  · exact iff_of_true (Nat.zero_le _) (by omega)
  · -- The logarithm is taken of one less, so that powers of two are not rounded up.
    rw [Nat.succ_le_iff, Nat.log2_lt (by omega)]
    omega

/-- The least depth for a number of leaves has room for them. -/
theorem le_two_pow_depthFor (count : Nat) : count ≤ 2 ^ depthFor count :=
  depthFor_le_iff.mp (Nat.le_refl _)

/-- Fewer elements need no more chunks. -/
theorem elementChunks_le (element : Schema) {count greater : Nat} (fewer : count ≤ greater) :
    element.elementChunks count ≤ element.elementChunks greater := by
  rw [elementChunks, elementChunks]
  -- Packed elements share chunks, others take up one position each.
  split
  · apply Nat.div_le_div_right
    have := Nat.mul_le_mul_right (Scalar.byteLength ‹_›) fewer
    omega
  · exact fewer

/-- The content tree of a vector has room for the chunks of its elements. -/
theorem vector_fits (element : Schema) (length : UInt64) :
    element.elementChunks length.toNat ≤ 2 ^ (vector element length).depth :=
  le_two_pow_depthFor _

/-- The content tree of a list has room for the chunks of as many elements as it may have. -/
theorem list_fits (element : Schema) {maxLength : UInt64} {count : Nat}
    (bounded : count ≤ maxLength.toNat) :
    element.elementChunks count ≤ 2 ^ (list element maxLength).depth :=
  Nat.le_trans (elementChunks_le element bounded) (le_two_pow_depthFor _)

/-- The content tree of a bitvector has room for the chunks of its bits. -/
theorem bitvector_fits (length : UInt64) :
    (length.toNat + 255) / 256 ≤ 2 ^ (bitvector length).depth :=
  le_two_pow_depthFor _

/-- The content tree of a bitlist has room for the chunks of as many bits as it may have. -/
theorem bitlist_fits {maxLength : UInt64} {count : Nat} (bounded : count ≤ maxLength.toNat) :
    (count + 255) / 256 ≤ 2 ^ (bitlist maxLength).depth :=
  Nat.le_trans (Nat.div_le_div_right (by omega)) (le_two_pow_depthFor _)

/-- The content tree of a container has room for its fields. -/
theorem container_fits (fields : List Field) : fields.length ≤ 2 ^ (container fields).depth :=
  le_two_pow_depthFor _

end Schema

end Ssz
