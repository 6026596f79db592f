import Ssz.Proofs.View.Grow
import Ssz.Proofs.View.Reachable

/-! Append equivalence: lists that grow by calls are lists that are made of the longer values. -/

namespace Ssz

/-- A call that makes a list longer. -/
inductive Growth where
  | append (value : Value)
  | extend (values : List Value)

/-- The values that a call puts at the end of a list. -/
def Growth.values : Growth → List Value
  | append value => [value]
  | extend values => values

namespace View

/-- A list after a call that makes it longer. -/
def grow (view : View) : Growth → Except ViewError View
  | .append value => view.append value
  | .extend values => view.extend values

/-- Calls that make a list longer one after another do what one call does for all their values. -/
theorem foldlM_grow (view : View) (calls : List Growth) :
    calls.foldlM grow view = view.extend (calls.flatMap Growth.values) := by
  induction calls generalizing view with
  | nil => rfl
  | cons call rest ih =>
    -- A call extends by its own values, which are only one where it appends.
    have one : view.grow call = view.extend call.values := by
      cases call with
      | append value =>
        rw [grow, Growth.values, View.extend, List.foldlM_cons]
        exact (bind_pure _).symm
      | extend values => rfl
    rw [List.foldlM_cons, List.flatMap_cons, View.extend, List.foldlM_append, one]
    exact congrArg _ (funext ih)

/-- Appending to a list that holds a value gives the view of that value with one more element. -/
structure Appends (view : View) (element : Schema) (max : UInt64) (elements : Value) : Prop where
  /-- At the greatest length nothing is taken, whatever it is. -/
  full (value : Value) (full : elements.count = max.toNat) :
    view.append value = .error (.lengthExceedsMax (elements.count + 1) max.toNat)
  /-- What does not inhabit the elements is refused for its own fault. -/
  stranger (value : Value) (room : elements.count < max.toNat)
    (stranger : ¬ element.Inhabits value) :
    ∃ fault, element.treeOf value = .error fault ∧ view.append value = .error fault
  member (value : Value) (room : elements.count < max.toNat) (member : element.Inhabits value) :
    ∃ longer, view.append value = .ok longer ∧
      ofValue view.schema (elements.extend [value]) = .ok longer

/-- Extending a list that holds a value gives the view of that value with all the new elements. -/
structure Extends (view : View) (element : Schema) (max : UInt64) (elements : Value) : Prop where
  extend_ok (more : List Value) :
    (∃ longer, view.extend more = .ok longer) ↔
      elements.count + more.length ≤ max.toNat ∧ ∀ value ∈ more, element.Inhabits value
  extend_eq (more : List Value) (longer : View) (done : view.extend more = .ok longer) :
    ofValue view.schema (elements.extend more) = .ok longer
  /-- The values may come in any calls, as long as they come in order. -/
  split (calls : List Growth) :
    calls.foldlM grow view = view.extend (calls.flatMap Growth.values)
  /-- The error is the one of the first value that is refused, after all before it were taken. -/
  failed (more : List Value) (fault : ViewError) :
    view.extend more = .error fault ↔ ∃ before value after longer,
      more = before ++ value :: after ∧ view.extend before = .ok longer ∧
        longer.append value = .error fault

namespace ListOf

variable {view : View} {element : Schema} {max : UInt64} {elements : Value}

/-- The view of a value is appended to as the value is. -/
theorem appendsAs (list : view.ListOf element max elements) :
    view.Appends element max elements where
  full value full := list.append_of_full full value
  stranger _ room stranger := list.append_of_stranger room stranger
  member _ room member := by
    obtain ⟨longer, done⟩ := list.append_of_inhabits room member
    -- The longer list keeps the schema that its value is checked against.
    obtain ⟨_, _, same, more⟩ := list.of_append done
    exact ⟨longer, done, same ▸ more.built⟩

/-- The view of a value is extended as the value is. -/
theorem extendsAs (list : view.ListOf element max elements) :
    view.Extends element max elements where
  -- Whatever was extended is a list of the longer value, from which all the rest follows.
  extend_ok more := by
    constructor
    · rintro ⟨longer, done⟩
      obtain ⟨fits, each, _⟩ := list.of_extend done
      exact ⟨fits, each⟩
    · rintro ⟨fits, each⟩
      exact list.extend_of_fits fits each
  extend_eq more longer done := by
    obtain ⟨_, _, same, final⟩ := list.of_extend done
    exact same ▸ final.built
  split calls := foldlM_grow view calls
  failed more fault := extend_eq_error

end ListOf

/--
Append equivalence: a reachable list or bitlist has a value within its greatest length, and growing
it one by one gives the same tree, or the same refusal, as making it anew of the longer value.
-/
theorem Reachable.append_equivalence {view : View} (reachable : view.Reachable) {element : Schema}
    {max : UInt64} (grows : view.schema.growth? = some (element, max)) :
    ∃ elements, view.toValue = .ok elements ∧ elements.count ≤ max.toNat ∧
      view.Appends element max elements ∧ view.Extends element max elements := by
  obtain ⟨elements, read, built, _⟩ := reachable.canonical.rebuilt
  have list : view.ListOf element max elements := ⟨reachable.canonical.accepted, grows, built⟩
  exact ⟨elements, read, list.count_le, list.appendsAs, list.extendsAs⟩

/-- A fifth integer that starts a new chunk, and a sixth that finds no room. -/
theorem Reachable.append_equivalence_boundary :
    ∃ view longer, View.ofValue (.list (.scalar .uint64) 5)
        (.sequence [.uint 1, .uint 2, .uint 3, .uint 4]) = .ok view ∧
      view.append (.uint 5) = .ok longer ∧
      View.ofValue (.list (.scalar .uint64) 5)
        (.sequence [.uint 1, .uint 2, .uint 3, .uint 4, .uint 5]) = .ok longer ∧
      longer.append (.bool true) = .error (.lengthExceedsMax 6 5) := by
  have accepted : (Schema.list (.scalar .uint64) 5).Accepted := ⟨trivial, rfl⟩
  have inhabits : (Schema.list (.scalar .uint64) 5).Inhabits
      (.sequence [.uint 1, .uint 2, .uint 3, .uint 4]) := by
    refine .list (by decide) ?_
    simp only [List.forall_mem_cons]
    exact ⟨.uint nofun (by decide), .uint nofun (by decide), .uint nofun (by decide),
      .uint nofun (by decide), nofun⟩
  obtain ⟨⟨schema, tree⟩, built⟩ := (ofValue_ok_iff accepted).mpr inhabits
  obtain rfl : schema = .list (.scalar .uint64) 5 := (represents_of_ofValue accepted built).1
  have reachable := Reachable.ofValue accepted built
  obtain ⟨_, read, _, appends, _⟩ := reachable.append_equivalence rfl
  obtain rfl := Except.ok.inj (read.symm.trans (toValue_ofValue accepted built))
  obtain ⟨⟨schema, grown⟩, done, rebuilt⟩ :=
    appends.member (.uint 5) (by decide) (.uint nofun (by decide))
  obtain rfl : schema = .list (.scalar .uint64) 5 := (represents_of_ofValue accepted rebuilt).1
  -- The longer list is reachable too, and is full now.
  obtain ⟨_, full, _, refuses, _⟩ := (reachable.append done).append_equivalence rfl
  obtain rfl := Except.ok.inj (full.symm.trans (toValue_ofValue accepted rebuilt))
  exact ⟨_, _, built, done, rebuilt, refuses.full (.bool true) rfl⟩

end View

end Ssz
