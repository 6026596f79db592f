import Ssz.Proofs.View.Reachable

/-! Setting members of views: what it does to the values of the views, and when it is refused. -/

namespace Ssz

/-- The schema of what is set under a key: of the member there, or of the variant of a union. -/
def View.childSchema? (view : View) (key : Key) : Option Schema :=
  match view.schema, key with
  | .union variants, .index selector => variants[selector.toNat]?.join
  | .union _, .name _ => none
  | _, _ => (view.get key).toOption.map View.schema

namespace View

/-- Setting a member of a view with a value is replacing that member of the value. -/
structure Replaces (view : View) (before : Value) : Prop where
  /-- A member is set where one is read, and to the inhabitants of its schema. -/
  set_ok (single : view.schema.kind ≠ .union) (key : Key) (value : Value) :
    (∃ updated, view.set key value = .ok updated) ↔
      ∃ member, view.get key = .ok member ∧ member.schema.Inhabits value
  /-- The member that is read gives way to the value in normal form, and all others stay. -/
  set_value (single : view.schema.kind ≠ .union) (key : Key) (value : Value)
    (member updated : View) (found : view.get key = .ok member)
    (done : view.set key value = .ok updated) :
    ∃ number old, view.schema.numberOf key = .ok number ∧ before.member? number = some old ∧
      member.toValue = .ok old ∧ updated.schema = view.schema ∧
      updated.toValue = .ok (before.replace number (member.schema.normal value))
  /-- A reachable view of the schema of a member is set as its value is. -/
  setView_eq_set (key : Key) (child : View) (value : Value) (inner : child.Reachable)
    (same : view.childSchema? key = some child.schema) (read : child.toValue = .ok value) :
    ∃ updated, view.setView key child = .ok updated ∧ view.set key value = .ok updated
  /-- A member that is set to its own value changes nothing. -/
  set_get (key : Key) (member : View) (value : Value) (found : view.get key = .ok member)
    (read : member.toValue = .ok value) : view.set key value = .ok view

/-- Switching a union is making it anew of the selector and the payload. -/
structure Switches (view : View) (variants : List (Option Schema)) : Prop where
  /-- A union is made of a selector in range, with a payload exactly as the variant asks. -/
  setVariant_ok (selector : UInt32) (payload : Option Value) :
    (∃ updated, view.setVariant selector payload = .ok updated) ↔
      (Schema.union variants).Inhabits (.union selector payload)
  setVariant_eq (selector : UInt32) (payload : Option Value) :
    view.setVariant selector payload = ofValue view.schema (.union selector payload)
  /-- The keys of a union are its selectors, given as indices. -/
  set_ok (key : Key) (value : Value) (updated : View) :
    view.set key value = .ok updated ↔ ∃ selector : UInt32, key = .index selector.toUInt64 ∧
      ofValue view.schema (.union selector (some value)) = .ok updated
  /-- A view has to be of the schema of the variant, and to be there exactly if the variant is. -/
  setVariantView_ok (selector : UInt32) (child : Option View) :
    (∃ updated, view.setVariantView selector child = .ok updated) ↔
      variants[selector.toNat]? = some (child.map View.schema)
  setVariantView_eq (selector : UInt32) (child : Option View) (payload : Option Value)
    (updated : View) (inner : ∀ member, child = some member → member.Reachable)
    (read : child.map View.toValue = payload.map Except.ok)
    (done : view.setVariantView selector child = .ok updated) :
    ofValue view.schema (.union selector payload) = .ok updated

/-- Members of other views than unions are set to views of the schema that is read. -/
theorem childSchema?_of_single {view : View} (single : view.schema.kind ≠ .union) {key : Key}
    {schema : Schema} (named : view.childSchema? key = some schema) :
    ∃ member, view.get key = .ok member ∧ member.schema = schema := by
  -- Once the schema is known not to be a union, the member that is read decides.
  have same : view.childSchema? key = (view.get key).toOption.map View.schema := by
    obtain ⟨own, tree⟩ := view
    cases own with
    | union variants => exact absurd rfl single
    | _ => rfl
  rw [same] at named
  cases read : view.get key with
  | error fault => simp [read, Except.toOption] at named
  | ok member => exact ⟨member, rfl, by simpa [read, Except.toOption] using named⟩

/-- A union is set to views of the schemas of its variants, under their selectors. -/
theorem childSchema?_of_union {view : View} {variants : List (Option Schema)}
    (isUnion : view.schema = .union variants) {key : Key} {schema : Schema}
    (named : view.childSchema? key = some schema) :
    ∃ index, key = .index index ∧ variants[index.toNat]? = some (some schema) := by
  simp only [childSchema?, isUnion] at named
  cases key with
  | name name => cases named
  | index index => exact ⟨index, rfl, Option.join_eq_some_iff.mp named⟩

/-- A canonical view is set by replacing members of its value. -/
theorem Canonical.replaces {view : View} (canonical : view.Canonical) {before : Value}
    (represents : view.schema.Represents before view.tree) : view.Replaces before where
  set_ok single key value := set_ok_iff canonical.accepted represents single value
  set_value single key value member updated found done :=
    toValue_set canonical.accepted represents single found done
  setView_eq_set key child value inner same read := by
    -- The key of a union is a selector, and all other keys lead to members.
    by_cases isUnion : view.schema.kind = .union
    · obtain ⟨variants, isUnion⟩ := Schema.union_of_kind isUnion
      obtain ⟨index, rfl, named⟩ := childSchema?_of_union isUnion same
      exact setView_eq_set_of_union isUnion canonical.accepted named
        (inner.canonical.represents_toValue read)
    · obtain ⟨member, found, same⟩ := childSchema?_of_single isUnion same
      exact setView_eq_set canonical.accepted represents isUnion found same
        (inner.canonical.represents_toValue read)
  set_get key member value found read := by
    by_cases isUnion : view.schema.kind = .union
    · obtain ⟨variants, isUnion⟩ := Schema.union_of_kind isUnion
      exact set_get_of_union isUnion canonical.accepted represents found
        (canonical.get found).accepted read
    · exact set_get canonical.accepted represents isUnion found read

/-- A canonical union is switched by making it anew. -/
theorem Canonical.switches {view : View} (canonical : view.Canonical)
    {variants : List (Option Schema)} (isUnion : view.schema = .union variants) :
    view.Switches variants where
  setVariant_ok selector payload := by
    rw [setVariant_eq_ofValue isUnion, ← isUnion]
    exact ofValue_ok_iff canonical.accepted
  setVariant_eq selector payload := setVariant_eq_ofValue isUnion payload
  set_ok key value updated := set_eq_ok_of_union isUnion canonical.accepted
  setVariantView_ok selector child := setVariantView_ok_iff isUnion
  setVariantView_eq selector child payload updated inner read done := by
    -- Either both are missing, or the payload is the value of the view.
    refine ofValue_of_setVariantView isUnion canonical.accepted ?_ done
    cases child with
    | none =>
      cases payload with
      | none => exact .none
      | some value => cases read
    | some member =>
      cases payload with
      | none => cases read
      | some value =>
        exact .some ((inner member rfl).canonical.represents_toValue (Option.some.inj read))

/--
Setting refines replacement: a reachable view has a value, setting a member replaces that member of
the value and nothing else, and setting a union is making it anew of a selector and a payload.
-/
theorem Reachable.set_refines_replacement {view : View} (reachable : view.Reachable) :
    ∃ before, view.toValue = .ok before ∧ view.Replaces before ∧
      ∀ variants, view.schema = .union variants → view.Switches variants := by
  obtain ⟨before, read, _, represents⟩ := reachable.canonical.rebuilt
  exact ⟨before, read, reachable.canonical.replaces represents,
    fun _ isUnion => reachable.canonical.switches isUnion⟩

/-- The second of three short integers that share a chunk, and are followed by their number. -/
theorem Reachable.set_refines_replacement_shared :
    ∃ view updated, View.ofValue (.list (.scalar .uint16) 5)
        (.sequence [.uint 10, .uint 20, .uint 30]) = .ok view ∧
      view.set (.index 1) (.uint 777) = .ok updated ∧
      updated.toValue = .ok (.sequence [.uint 10, .uint 777, .uint 30]) := by
  have accepted : (Schema.list (.scalar .uint16) 5).Accepted := ⟨trivial, rfl⟩
  have built : View.ofValue (.list (.scalar .uint16) 5) (.sequence [.uint 10, .uint 20, .uint 30]) =
      .ok ⟨.list (.scalar .uint16) 5,
        (Tree.leafOfBytes [10, 0, 20, 0, 30, 0]).withLength 3⟩ := by cbv
  obtain ⟨before, read, replaces, _⟩ := (Reachable.ofValue accepted built).set_refines_replacement
  have found : (⟨.list (.scalar .uint16) 5,
      (Tree.leafOfBytes [10, 0, 20, 0, 30, 0]).withLength 3⟩ : View).get (.index 1) =
        .ok ⟨.scalar .uint16, Tree.leafOfBytes [20, 0]⟩ := rfl
  have single : (Schema.list (.scalar .uint16) 5).kind ≠ .union := by decide
  obtain ⟨updated, done⟩ := (replaces.set_ok single (.index 1) (.uint 777)).mpr
    ⟨_, found, .uint (by decide) (by decide)⟩
  obtain ⟨number, _, numbered, _, _, _, after⟩ :=
    replaces.set_value single (.index 1) (.uint 777) _ updated found done
  -- The value was read from the view, and the index is the number of the member.
  obtain rfl : Value.sequence [.uint 10, .uint 20, .uint 30] = before := Except.ok.inj read
  obtain rfl : 1 = number := Except.ok.inj numbered
  exact ⟨_, updated, built, done, after⟩

end View

end Ssz
