import Ssz.Proofs.Value.Inhabits
import Ssz.View.Basic

/-! Views of values: they are made of the inhabitants of a schema, and give them back. -/

namespace Ssz.View

/-- The tree of the view of a value represents the normal form of the value. -/
theorem represents_of_ofValue {schema : Schema} (accepted : schema.Accepted) {value : Value}
    {view : View} (built : ofValue schema value = .ok view) :
    view.schema = schema ∧ schema.Represents (schema.normal value) view.tree := by
  obtain ⟨tree, filled, made⟩ := bind_eq_ok.mp built
  obtain rfl := Except.ok.inj made
  exact ⟨rfl, Schema.represents_of_treeOf schema accepted value tree filled⟩

/-- The view of a value holds the normal form of the value. -/
theorem toValue_ofValue {schema : Schema} (accepted : schema.Accepted) {value : Value} {view : View}
    (built : ofValue schema value = .ok view) : view.toValue = .ok (schema.normal value) := by
  obtain ⟨rfl, represents⟩ := represents_of_ofValue accepted built
  exact Schema.valueOf_of_represents _ accepted _ view.tree represents

/-- The tree that represents a value makes up the view of the value. -/
theorem ofValue_of_represents {schema : Schema} (accepted : schema.Accepted) {value : Value}
    {tree : Tree} (represents : schema.Represents value tree) :
    ofValue schema value = .ok ⟨schema, tree⟩ := by
  rw [ofValue, Schema.treeOf_of_represents schema accepted value tree represents, ok_bind]
  rfl

/-- A value has a view exactly when it inhabits the schema. -/
theorem ofValue_ok_iff {schema : Schema} (accepted : schema.Accepted) {value : Value} :
    (∃ view, ofValue schema value = .ok view) ↔ schema.Inhabits value := by
  rw [← Schema.treeOf_ok_iff accepted]
  -- A view is the tree of the value, together with the schema.
  cases built : schema.treeOf value <;> simp [ofValue, built]

/-- The tree that represents the normal form of an inhabitant makes up the view of it. -/
theorem ofValue_of_normal {schema : Schema} (accepted : schema.Accepted) {value : Value}
    (inhabits : schema.Inhabits value) {tree : Tree}
    (represents : schema.Represents (schema.normal value) tree) :
    ofValue schema value = .ok ⟨schema, tree⟩ := by
  obtain ⟨view, built⟩ := (ofValue_ok_iff accepted).mpr inhabits
  obtain ⟨rfl, also⟩ := represents_of_ofValue accepted built
  -- The view that is built represents the same normal form, which has one tree only.
  have first := Schema.treeOf_of_represents _ accepted _ tree represents
  have second := Schema.treeOf_of_represents _ accepted _ view.tree also
  obtain rfl := Except.ok.inj (first.symm.trans second)
  exact built

/--
A value has a view exactly when it inhabits the schema, and it is read back from the view with each
256-bit integer in it given as its thirty-two bytes and nothing else changed.
-/
theorem ofValue_ok_iff_inhabits {schema : Schema} (accepted : schema.Accepted) (value : Value) :
    ((∃ view, ofValue schema value = .ok view) ↔ schema.Inhabits value) ∧
      ∀ view, ofValue schema value = .ok view → view.toValue = .ok (schema.normal value) :=
  ⟨ofValue_ok_iff accepted, fun _ built => toValue_ofValue accepted built⟩

/-- A wide integer given as a number, choices with and without a payload, and nine bits at most. -/
theorem ofValue_ok_iff_inhabits_wide :
    ∃ view, ofValue (.container [⟨"wide", .scalar .uint256⟩,
        ⟨"choices", .list (.union [none, some (.scalar .uint16)]) 3⟩, ⟨"flags", .bitlist 9⟩])
          (.container [.uint 5, .sequence [.union 1 (some (.uint 300)), .union 0 none],
            .bits [true, false, true]]) = .ok view ∧
      view.toValue = .ok (.container [.uint256 (Chunk.padded [5]),
        .sequence [.union 1 (some (.uint 300)), .union 0 none], .bits [true, false, true]]) := by
  have accepted : (Schema.container [⟨"wide", .scalar .uint256⟩,
      ⟨"choices", .list (.union [none, some (.scalar .uint16)]) 3⟩,
      ⟨"flags", .bitlist 9⟩]).Accepted :=
    ⟨⟨trivial, ⟨⟨⟨trivial, trivial⟩, rfl⟩, rfl⟩, by cbv, trivial⟩, rfl⟩
  obtain ⟨made, read⟩ := ofValue_ok_iff_inhabits accepted
    (.container [.uint 5, .sequence [.union 1 (some (.uint 300)), .union 0 none],
      .bits [true, false, true]])
  -- The number five is given in its short form, which a wide integer takes as well.
  have inhabits : (Schema.container [⟨"wide", .scalar .uint256⟩,
      ⟨"choices", .list (.union [none, some (.scalar .uint16)]) 3⟩,
      ⟨"flags", .bitlist 9⟩]).Inhabits (.container [.uint 5,
        .sequence [.union 1 (some (.uint 300)), .union 0 none], .bits [true, false, true]]) := by
    refine .container (.cons (.uint (by decide) (by simp [Scalar.byteLength]))
      (.cons (.list (by decide) ?_) (.cons (.bitlist (by decide)) .nil)))
    intro choice member
    rcases List.mem_cons.mp member with rfl | later
    · exact .variant rfl (.uint (by decide) (by decide))
    · obtain rfl := List.mem_singleton.mp later
      exact .empty rfl
  obtain ⟨view, built⟩ := made.mpr inhabits
  exact ⟨view, built, read view built⟩

end Ssz.View
