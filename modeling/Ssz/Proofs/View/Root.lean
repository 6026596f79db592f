import Ssz.Proofs.Value.Report
import Ssz.View.Basic

/-! Roots of views: the tree and the direct computation give one root, or one and the same error. -/

namespace Ssz.View

/--
The root computed from a value alone is the root of the view of the value. There is one exactly when
no part of the value is at fault; else both fail with the first fault, depth first and from left to
right.
-/
theorem root_ofValue {schema : Schema} (accepted : schema.Accepted) (config : HashingConfig)
    (value : Value) :
    schema.rootOf config value = root <$> ofValue schema value ∧
      ((∃ chunk, schema.rootOf config value = .ok chunk) ↔
        ∀ path, schema.faultAt value path = none) ∧
      ∀ error, schema.rootOf config value = .error error ↔
        FirstFault (schema.faultAt value) error := by
  have same := Schema.rootOf_eq config schema accepted value
  -- Taking the root of a tree cannot fail, so the faults of the tree are those of the root.
  have reports : Reports (schema.rootOf config value) (schema.faultAt value) := by
    rw [same]
    exact (Schema.reports_treeOf schema accepted value).bind fun _ _ => ⟨_, rfl⟩
  refine ⟨?_, reports.ok_iff, fun _ => reports.error_iff⟩
  rw [same, ofValue]
  cases schema.treeOf value <;> rfl

/-- Pairs of bytes, where an element of the first is at fault and the second is too short. -/
theorem root_ofValue_deeper_first :
    (Schema.list (.vector (.scalar .uint8) 2) 4).rootOf .standard
        (.sequence [.sequence [.uint 1, .bool true], .sequence [.uint 5]]) =
      .error (.typeMismatch (.kind (.scalar .uint8))) ∧
    FirstFault
      ((Schema.list (.vector (.scalar .uint8) 2) 4).faultAt
        (.sequence [.sequence [.uint 1, .bool true], .sequence [.uint 5]]))
      (.typeMismatch (.kind (.scalar .uint8))) := by
  have accepted : (Schema.list (.vector (.scalar .uint8) 2) 4).Accepted :=
    ⟨⟨trivial, rfl⟩, rfl⟩
  -- The truth value lies deeper than the short pair, but in an earlier element.
  have refused : ofValue (.list (.vector (.scalar .uint8) 2) 4)
      (.sequence [.sequence [.uint 1, .bool true], .sequence [.uint 5]]) =
        .error (.typeMismatch (.kind (.scalar .uint8))) := rfl
  obtain ⟨same, _, told⟩ := root_ofValue accepted .standard
    (.sequence [.sequence [.uint 1, .bool true], .sequence [.uint 5]])
  rw [refused] at same
  exact ⟨same, (told _).mp same⟩

end Ssz.View
