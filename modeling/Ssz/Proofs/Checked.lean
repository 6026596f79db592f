import Mathlib.Algebra.Group.Nat.Defs
import Mathlib.Data.List.Forall2

/-! Computations that may fail: when one step after another, or a step for each member, succeeds. -/

namespace Ssz

variable {ε α β : Type}

/-- A plain result is a success. -/
@[simp] theorem pure_eq_ok (value : α) : (pure value : Except ε α) = .ok value := rfl

/-- A raised fault is a failure. -/
@[simp] theorem throw_eq_error (fault : ε) : (throw fault : Except ε α) = .error fault := rfl

/-- After a success the next step runs on its value. -/
@[simp] theorem ok_bind (value : α) (next : α → Except ε β) :
    (Except.ok value >>= next) = next value := rfl

/-- After a failure no step runs. -/
@[simp] theorem error_bind (fault : ε) (next : α → Except ε β) :
    (Except.error fault >>= next) = .error fault := rfl

/-- Two steps succeed exactly when the first does and the second does on its value. -/
theorem bind_eq_ok {first : Except ε α} {next : α → Except ε β} {result : β} :
    (first >>= next) = .ok result ↔ ∃ value, first = .ok value ∧ next value = .ok result := by
  cases first <;> simp

/-- Two steps fail exactly when the first does, or when the second does on its value. -/
theorem bind_eq_error {first : Except ε α} {next : α → Except ε β} {fault : ε} :
    (first >>= next) = .error fault ↔
      first = .error fault ∨ ∃ value, first = .ok value ∧ next value = .error fault := by
  cases first <;> simp

/-- A check and a step succeed exactly when the check passes and the step succeeds after it. -/
theorem check_bind_eq_ok {check : Except ε Unit} {next : Unit → Except ε β} {result : β} :
    (check >>= next) = .ok result ↔ check = .ok () ∧ next () = .ok result := by
  cases check <;> simp

/-- What is made from a result succeeds exactly when that does, and is made from its value. -/
theorem map_eq_ok {first : Except ε α} {make : α → β} {result : β} :
    first.map make = .ok result ↔ ∃ value, first = .ok value ∧ make value = result := by
  cases first <;> simp [Except.map]

/-- What is made from a result fails exactly when that does. -/
theorem map_eq_error {first : Except ε α} {make : α → β} {fault : ε} :
    first.map make = .error fault ↔ first = .error fault := by
  cases first <;> simp [Except.map]

/-- A step for each member succeeds exactly when each of them does, in order. -/
theorem mapM_eq_ok {step : α → Except ε β} {members : List α} {results : List β} :
    members.mapM step = .ok results ↔
      List.Forall₂ (fun member result => step member = .ok result) members results := by
  -- The head is computed first, so a failure there ends it before the rest is looked at.
  induction members generalizing results with
  | nil => simp [eq_comm]
  | cons member rest ih =>
    simp only [List.mapM_cons, bind_eq_ok, pure_eq_ok, Except.ok.injEq, List.forall₂_cons_left_iff,
      ih]
    constructor
    · rintro ⟨result, first, results, others, rfl⟩
      exact ⟨result, results, first, others, rfl⟩
    · rintro ⟨result, results, first, others, rfl⟩
      exact ⟨result, first, results, others, rfl⟩

/-- Steps for each member fail with the fault of one of them. -/
theorem exists_of_mapM_eq_error {step : α → Except ε β} {members : List α} {fault : ε}
    (failed : members.mapM step = .error fault) :
    ∃ member ∈ members, step member = .error fault := by
  induction members with
  | nil => cases failed
  | cons member rest ih =>
    rw [List.mapM_cons, bind_eq_error] at failed
    rcases failed with own | ⟨result, _, failed⟩
    · exact ⟨member, List.mem_cons_self, own⟩
    · -- Past the head only the rest can fail, since nothing is done to its results.
      rcases bind_eq_error.mp failed with later | ⟨results, _, none⟩
      · obtain ⟨other, inside, found⟩ := ih later
        exact ⟨other, List.mem_cons_of_mem _ inside, found⟩
      · cases none

/-- A step that succeeds for each member gives the list of the results. -/
theorem mapM_of_each {step : α → Except ε β} {result : α → β} {members : List α}
    (each : ∀ member ∈ members, step member = .ok (result member)) :
    members.mapM step = .ok (members.map result) :=
  mapM_eq_ok.mpr (List.forall₂_map_right_iff.mpr (List.forall₂_same.mpr each))

end Ssz
