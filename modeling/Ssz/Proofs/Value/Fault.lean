import Mathlib.Data.List.Lex
import Ssz.Proofs.Value.Tree

/-! Faults of values: which parts of a value break its schema, and that the first one is told. -/

namespace Ssz

/-- Whether a value is one of a scalar type: of the right form, and small enough for its width. -/
def Scalar.fits (type : Scalar) : Value → Bool
  | .bool _ => type = boolean
  | .uint number => type ≠ boolean ∧ number.toNat < 256 ^ type.byteLength
  | .uint256 _ => type = uint256
  | _ => false

namespace Schema

/-- What is wrong with a value under a schema, apart from what is wrong with its parts. -/
def fault? : Schema → Value → Option ViewError
  | .scalar type, value =>
    if type.fits value then none else some (.typeMismatch (.kind (.scalar type)))
  | .vector _ length, .sequence elements =>
    if elements.length = length.toNat then none else some (.typeMismatch .vectorLength)
  | .list _ maxLength, .sequence elements =>
    if elements.length ≤ maxLength.toNat then none
    else some (.lengthExceedsMax elements.length maxLength.toNat)
  | .bitvector length, .bits bits =>
    if bits.length = length.toNat then none else some (.typeMismatch .bitvectorLength)
  | .bitlist maxLength, .bits bits =>
    if bits.length ≤ maxLength.toNat then none
    else some (.lengthExceedsMax bits.length maxLength.toNat)
  | .container fields, .container members =>
    if members.length = fields.length then none else some (.typeMismatch .valuePerField)
  | .union variants, .union selector payload =>
    match variants[selector.toNat]? with
    | none => some (.unionSelectorOutOfRange selector.toNat variants.length)
    -- A payload is given exactly for a variant that has a schema.
    | some variant =>
      if variant.isSome = payload.isSome then none else some (.typeMismatch .unionPayload)
  | schema, _ => some (.typeMismatch (.kind schema.kind))

/-- The element, member or payload at an index of a value, with the schema that it belongs to. -/
def part? : Schema → Value → (index : Nat) → Option (Schema × Value)
  | .vector element _, .sequence elements, index | .list element _, .sequence elements, index =>
    elements[index]?.map (element, ·)
  | .container fields, .container members, index =>
    match fields[index]?, members[index]? with
    | some field, some member => some (field.schema, member)
    | _, _ => none
  | .union variants, .union selector (some value), 0 =>
    variants[selector.toNat]?.join.map (·, value)
  | _, _, _ => none

/-- What is wrong with the part of a value at the end of a path of indices. -/
def faultAt : Schema → Value → (path : List Nat) → Option ViewError
  | schema, value, [] => schema.fault? value
  | schema, value, index :: path =>
    match schema.part? value index with
    | some (inner, part) => inner.faultAt part path
    | none => none

end Schema

/--
The fault at some path, where there is none at any path before it: a value comes before its parts,
and its parts come from left to right, each with all that is inside it.
-/
def FirstFault (faultAt : List Nat → Option ViewError) (error : ViewError) : Prop :=
  ∃ path, faultAt path = some error ∧ ∀ earlier, earlier < path → faultAt earlier = none

/-- There is only one first fault. -/
theorem FirstFault.unique {faultAt : List Nat → Option ViewError} {error other : ViewError}
    (first : FirstFault faultAt error) (also : FirstFault faultAt other) : error = other := by
  obtain ⟨path, found, before⟩ := first
  obtain ⟨otherPath, otherFound, otherBefore⟩ := also
  -- Neither path comes before the other, so they are the same.
  rcases lt_trichotomy path otherPath with less | rfl | greater
  · rw [otherBefore path less] at found
    cases found
  · exact Option.some.inj (found.symm.trans otherFound)
  · rw [before otherPath greater] at otherFound
    cases otherFound

/-- A computation succeeds where there is no fault at all, and else fails with the first one. -/
def Reports {α : Type} (result : Except ViewError α) (faultAt : List Nat → Option ViewError) :
    Prop :=
  match result with
  | .ok _ => ∀ path, faultAt path = none
  | .error error => FirstFault faultAt error

/-- The faults inside the parts of a value, which is itself without fault. -/
def inParts (faults : (index : Nat) → List Nat → Option ViewError) : List Nat → Option ViewError
  | [] => none
  | index :: path => faults index path

namespace Reports

variable {α β γ : Type} {faultAt : List Nat → Option ViewError}
  {faults : (index : Nat) → List Nat → Option ViewError}

/-- A computation that reports faults fails with an error exactly when that is the first one. -/
theorem error_iff {result : Except ViewError α} (reports : Reports result faultAt)
    {error : ViewError} : result = .error error ↔ FirstFault faultAt error := by
  cases result with
  | error own =>
    constructor
    · rintro ⟨⟩
      exact reports
    · intro first
      rw [FirstFault.unique reports first]
  | ok value =>
    -- Where there is no fault at all, there is no first one either.
    simp only [reduceCtorEq, false_iff]
    rintro ⟨path, found, _⟩
    rw [reports path] at found
    cases found

/-- A computation that reports faults succeeds exactly when there is none. -/
theorem ok_iff {result : Except ViewError α} (reports : Reports result faultAt) :
    (∃ value, result = .ok value) ↔ ∀ path, faultAt path = none := by
  -- An error has a fault to report, and a result says that there is none.
  cases result with
  | error own =>
    obtain ⟨path, found, _⟩ := reports
    simp only [reduceCtorEq, exists_false, false_iff, not_forall]
    exact ⟨path, by simp [found]⟩
  | ok value => exact ⟨fun _ => reports, fun _ => ⟨value, rfl⟩⟩

/-- A fault of the value itself comes before all others. -/
theorem own {error : ViewError} (found : faultAt [] = some error) :
    Reports (.error error : Except ViewError α) faultAt :=
  ⟨[], found, fun _ before => absurd before (List.not_lt_nil _)⟩

/-- A step that cannot fail leaves all reports to what comes before it. -/
theorem bind {first : Except ViewError α} {next : α → Except ViewError β}
    (reports : Reports first faultAt)
    (total : ∀ value, first = .ok value → ∃ result, next value = .ok result) :
    Reports (first >>= next) faultAt := by
  -- If the first step fails, its error is that of the whole; otherwise nothing is at fault.
  cases first with
  | error fault => exact reports
  | ok value =>
    obtain ⟨result, done⟩ := total value rfl
    rw [ok_bind, done]
    exact reports

/-- Where there are no parts, there is nothing to report. -/
theorem nil (value : α) : Reports (.ok value) (inParts fun _ _ => none) := by
  intro path
  cases path <;> rfl

/-- The faults of the first part are reported before those of the other parts. -/
theorem cons {head : Except ViewError α} {rest : Except ViewError β} {join : α → β → γ}
    (first : Reports head (faults 0))
    (later : Reports rest (inParts fun index => faults (index + 1))) :
    Reports (do return join (← head) (← rest)) (inParts faults) := by
  cases head with
  | error error =>
    -- Nothing comes before the first part but the value itself, which is without fault.
    obtain ⟨path, found, before⟩ := first
    refine ⟨0 :: path, found, ?_⟩
    intro earlier less
    cases earlier with
    | nil => rfl
    | cons index inner =>
      rcases List.cons_lt_cons_iff.mp less with below | ⟨rfl, inside⟩
      · cases below
      · exact before inner inside
  | ok value =>
    cases rest with
    | error error =>
      obtain ⟨path, found, before⟩ := later
      cases path with
      | nil => cases found
      | cons index path =>
        refine ⟨(index + 1) :: path, found, ?_⟩
        intro earlier less
        -- An earlier path leads into the first part, or to an earlier one of the others.
        match earlier, less with
        | [], _ => rfl
        | 0 :: inner, _ => exact first inner
        | (other + 1) :: inner, less =>
          refine before (other :: inner) (List.cons_lt_cons_iff.mpr ?_)
          rcases List.cons_lt_cons_iff.mp less with below | ⟨same, inside⟩
          · exact .inl (Nat.lt_of_succ_lt_succ below)
          · exact .inr ⟨Nat.succ.inj same, inside⟩
    | ok values =>
      intro path
      match path with
      | [] => rfl
      | 0 :: inner => exact first inner
      | (index + 1) :: inner => exact later (index :: inner)

/-- The faults of an only part are all there is to report. -/
theorem only {part : Except ViewError α} {finish : α → β} (reports : Reports part faultAt) :
    Reports (do return finish (← part))
      (inParts fun index => if index = 0 then faultAt else fun _ => none) :=
  @cons _ _ _ (fun index => if index = 0 then faultAt else fun _ => none) part (.ok ())
    (fun value _ => finish value) reports (nil ())

/-- A step for each member, from left to right, reports the faults of the members. -/
theorem mapM {step : α → Except ViewError β} {faultsOf : α → List Nat → Option ViewError}
    (each : ∀ member, Reports (step member) (faultsOf member)) (members : List α) :
    Reports (members.mapM step)
      (inParts fun index path => members[index]?.bind (faultsOf · path)) := by
  induction members with
  | nil => exact nil []
  | cons member rest ih =>
    rw [List.mapM_cons]
    exact cons (each member) ih

end Reports

end Ssz
