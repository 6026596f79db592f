import Ssz.Proofs.Schema.Accepted
import Ssz.Proofs.Truth
import Ssz.Schema.Path

/-! Errors of lookups: all but those about the variants of a union tell the truth. -/

namespace Ssz.Schema

/--
A key for which the lookup of a union names a selector that is in range as one that is not: that of
the empty variant, or an index out of range whose low 32 bits are in range.
-/
def Misreports : Schema → Key → Prop
  | union variants, .index index =>
    variants[index.toNat]? = some none ∨
      variants.length ≤ index.toNat ∧ index.toNat % UInt32.size < variants.length
  | _, _ => False

/-- A path that comes to a union which misreports the next key, at a position that is a word. -/
inductive Misleads : Schema → (reached : Gindex) → (path : List Key) → Prop
  | here {schema : Schema} {reached : Gindex} {key : Key} {rest : List Key} :
    schema.Misreports key → Misleads schema reached (key :: rest)
  | further {schema member : Schema} {reached gindex next : Gindex} {key : Key} {rest : List Key} :
    schema.slot key none = .ok (.subtree gindex member) → reached.concat gindex = some next →
      Misleads member next rest → Misleads schema reached (key :: rest)

section Slots

variable {schema : Schema} {key : Key} {index : UInt64} {bound : Option UInt64} {fault : ViewError}

/-- Finding a field by its name tells the truth. -/
theorem failsOnly_fieldIndex (schema : Schema) (name : String) :
    FailsOnly ViewError.Truthful (schema.fieldIndex name) := by
  -- A name is only refused where the search did not find it.
  unfold fieldIndex
  split
  · split
    · exact .ok _
    · exact .error trivial
  · exact .error trivial

/-- A bound tells the truth: an index out of bounds is not below it. -/
theorem failsOnly_slotBelow (index bound : UInt64) (slot : Slot) :
    FailsOnly ViewError.Truthful (slotBelow index bound slot) := by
  refine .ite (fun _ => .ok slot) fun above => .error ?_
  exact UInt64.le_iff_toNat_le.mp (UInt64.not_lt.mp above)

/-- Looking up a member tells the truth where that is not the variant of a union. -/
theorem failsOnly_slotAt (single : schema.kind ≠ .union) (index : UInt64)
    (bound : Option UInt64) : FailsOnly ViewError.Truthful (schema.slotAt index bound) := by
  cases schema with
  | scalar type => exact .error trivial
  | vector element length => exact failsOnly_slotBelow index length _
  | list element maxLength => exact failsOnly_slotBelow index _ _
  | bitvector length => exact failsOnly_slotBelow index length _
  | bitlist maxLength => exact failsOnly_slotBelow index _ _
  | container fields =>
    rw [slotAt]
    split
    · exact .ok _
    · -- A field that is not there has a number that is not below that of the fields.
      rename_i missing
      exact .error (List.getElem?_eq_none_iff.mp missing)
  | union variants => exact absurd rfl single

/-- Looking up a member by its key tells the truth where that is not the variant of a union. -/
theorem failsOnly_slot (single : schema.kind ≠ .union) (key : Key) (bound : Option UInt64) :
    FailsOnly ViewError.Truthful (schema.slot key bound) := by
  cases key with
  | index index => exact failsOnly_slotAt single index bound
  | name name =>
    exact (schema.failsOnly_fieldIndex name).bind fun number _ => failsOnly_slotAt single _ bound

/-- Only unions misreport anything. -/
theorem not_misreports (single : schema.kind ≠ .union) (key : Key) : ¬ schema.Misreports key := by
  cases schema with
  | union variants => exact absurd rfl single
  | _ => exact id

/-- The lookup of a variant tells the truth where it fails, unless it misreports the index. -/
theorem truthful_iff_of_union {variants : List (Option Schema)}
    (failed : (union variants).slotAt index bound = .error fault) :
    fault.Truthful ↔ ¬ (union variants).Misreports (.index index) := by
  rw [slotAt] at failed
  split at failed
  · cases failed
  · rename_i other
    obtain rfl := Except.error.inj failed
    show variants.length ≤ index.toUInt32.toNat ↔ _
    rw [UInt64.toNat_toUInt32, Misreports]
    have below : index.toNat % UInt32.size ≤ index.toNat := Nat.mod_le _ _
    -- An index that names no variant with a schema names the empty one, or is out of range.
    rcases Nat.lt_or_ge index.toNat variants.length with within | outside
    · have found := List.getElem?_eq_getElem within
      have empty : variants[index.toNat]? = some none := by
        cases named : variants[index.toNat] with
        | none => rw [found, named]
        | some schema => exact absurd (found.trans (congrArg some named)) (other schema)
      simp only [empty, true_or, not_true_eq_false, iff_false, Nat.not_le]
      exact Nat.lt_of_le_of_lt below within
    · have none := List.getElem?_eq_none outside
      simp only [none, reduceCtorEq, false_or, outside, true_and, Nat.not_lt]

/-- A lookup tells the truth where it fails, unless it misreports the key. -/
theorem truthful_iff_of_slot (failed : schema.slot key bound = .error fault) :
    fault.Truthful ↔ ¬ schema.Misreports key := by
  by_cases isUnion : schema.kind = .union
  · cases schema with
    | union variants =>
      cases key with
      | index index => exact truthful_iff_of_union (show (union variants).slotAt index bound = _ from failed)
      | name name =>
        -- Variants have no names to be looked up by.
        obtain rfl := Except.error.inj failed
        exact iff_of_true trivial id
    | _ => cases isUnion
  · exact iff_of_true (failsOnly_slot isUnion key bound fault failed) (not_misreports isUnion key)

/-- A key that is misreported is one whose lookup fails. -/
theorem Misreports.slot (misreports : schema.Misreports key) (bound : Option UInt64) :
    ∃ fault, schema.slot key bound = .error fault := by
  -- Only unions misreport, and a slot of theirs needs a variant with a schema at the index.
  cases schema with
  | union variants =>
    cases key with
    | name name => exact ⟨_, rfl⟩
    | index index =>
      have missing : ∀ variant, variants[index.toNat]? ≠ some (some variant) := by
        intro variant found
        rcases misreports with empty | ⟨outside, _⟩
        · rw [empty] at found
          cases found
        · rw [List.getElem?_eq_none outside] at found
          cases found
      rw [Schema.slot, slotAt]
      split
      · exact absurd ‹_› (missing _)
      · exact ⟨_, rfl⟩
  | _ => exact misreports.elim

end Slots

section Paths

/-- A path that goes on below a packed scalar or a bit is refused in words. -/
theorem truthful_pathTooLong (schema : Schema) : schema.pathTooLong.Truthful := by
  unfold pathTooLong
  split <;> exact trivial

/-- A path misleads by its first key, or from the member under it on. -/
theorem misleads_cons {schema : Schema} {reached : Gindex} {key : Key} {rest : List Key} :
    schema.Misleads reached (key :: rest) ↔
      schema.Misreports key ∨ ∃ gindex member next,
        schema.slot key none = .ok (.subtree gindex member) ∧ reached.concat gindex = some next ∧
          member.Misleads next rest := by
  -- The two sides are the two constructors, so the cases correspond one to one.
  constructor
  · intro misleads
    cases misleads with
    | here misreports => exact .inl misreports
    | further located onward later => exact .inr ⟨_, _, _, located, onward, later⟩
  · rintro (misreports | ⟨gindex, member, next, located, onward, later⟩)
    · exact .here misreports
    · exact .further located onward later

/-- A path tells the truth where it leads nowhere, unless it comes to a key that is misreported. -/
theorem truthful_iff_of_gindexBelow {schema : Schema} {reached : Gindex} {path : List Key}
    {fault : ViewError} (failed : schema.gindexBelow reached path = .error fault) :
    fault.Truthful ↔ ¬ schema.Misleads reached path := by
  induction path generalizing schema reached with
  | nil => cases failed
  | cons key rest ih =>
    rw [misleads_cons]
    cases found : schema.slot key none with
    | error own =>
      rw [gindexBelow, found] at failed
      obtain rfl := Except.error.inj failed
      -- The path does not go on below a key without a slot.
      simp [truthful_iff_of_slot found]
    | ok slot =>
      have honest : ¬ schema.Misreports key := by
        intro misreports
        obtain ⟨fault, refused⟩ := misreports.slot none
        rw [found] at refused
        cases refused
      rw [gindexBelow, found, ok_bind] at failed
      simp only [honest, Except.ok.injEq, false_or]
      cases joined : reached.concat slot.gindex with
      | none =>
        simp only [joined] at failed
        obtain rfl := Except.error.inj failed
        refine iff_of_true trivial ?_
        rintro ⟨gindex, member, next, rfl, onward, _⟩
        rw [Slot.gindex, onward] at joined
        cases joined
      | some next =>
        simp only [joined] at failed
        cases slot with
        | subtree gindex member =>
          -- There is one member to go on from, at one position.
          simp only [Slot.gindex] at joined
          simp only [ih failed, Slot.subtree.injEq, joined, Option.some.injEq, exists_and_left,
            exists_eq_left', and_assoc]
        | _ =>
          refine iff_of_true ?_ (by simp)
          simp only at failed
          split at failed
          · cases failed
          · obtain rfl := Except.error.inj failed
            exact schema.truthful_pathTooLong

/-- A path that comes to a key that is misreported leads nowhere. -/
theorem Misleads.gindexBelow {schema : Schema} {reached : Gindex} {path : List Key}
    (misleads : schema.Misleads reached path) :
    ∃ fault, schema.gindexBelow reached path = .error fault := by
  -- Every key before the misreported one is located, so the search comes to that one.
  induction misleads with
  | here misreports =>
    obtain ⟨fault, refused⟩ := misreports.slot none
    exact ⟨fault, by rw [Schema.gindexBelow, refused, error_bind]⟩
  | further located onward _ ih =>
    rw [Schema.gindexBelow, located, ok_bind]
    simp only [Slot.gindex, onward]
    exact ih

end Paths

end Ssz.Schema
