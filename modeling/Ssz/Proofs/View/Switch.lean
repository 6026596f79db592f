import Ssz.Proofs.View.OfValue
import Ssz.View.Update

/-! Switching unions: a union takes the variant asked for, as if it was made of its value. -/

namespace Ssz.View

section Union

variable {view : View} {variants : List (Option Schema)} {selector : UInt32}

/-- Switching a union makes it anew of the selector and the payload. -/
theorem setVariant_eq_ofValue (isUnion : view.schema = .union variants) (payload : Option Value) :
    view.setVariant selector payload = ofValue view.schema (.union selector payload) := by
  simp [setVariant, isUnion, Schema.kind]

/-- A union is only made of selectors that its variants have, which are small. -/
theorem selector_lt_of_ofValue (accepted : (Schema.union variants).Accepted)
    {payload : Option Value} {updated : View}
    (built : ofValue (.union variants) (.union selector payload) = .ok updated) :
    selector.toNat < 128 := by
  have bounded := accepted.variants_le
  simp only [ofValue, Schema.treeOf] at built
  -- The selector is checked before anything else.
  split at built
  · cases built
  · omega

/-- A small index is the selector that it is narrowed to, a large one is that of no variant. -/
theorem toUInt64_of_selectorOf {index : UInt64}
    (named : selectorOf (.index index) = .ok selector) (small : selector.toNat < 128) :
    index = selector.toUInt64 := by
  obtain rfl := Except.ok.inj named
  apply UInt64.toNat_inj.mp
  split
  · rename_i narrow
    simp [Nat.mod_eq_of_lt narrow]
  · -- The greatest selector is not small.
    rename_i wide
    rw [if_neg wide] at small
    exact absurd small (by decide)

/-- A selector given as an index is not changed. -/
theorem selectorOf_toUInt64 (selector : UInt32) :
    selectorOf (.index selector.toUInt64) = .ok selector := by
  have narrow : selector.toUInt64.toNat < UInt32.size := selector.toNat_lt
  rw [selectorOf, if_pos narrow, UInt32.toUInt32_toUInt64]

/-- A union is set by the selectors of its variants, given as indices, and by no other key. -/
theorem set_eq_ok_of_union (isUnion : view.schema = .union variants)
    (accepted : view.schema.Accepted) {key : Key} {value : Value} {updated : View} :
    view.set key value = .ok updated ↔ ∃ selector : UInt32, key = .index selector.toUInt64 ∧
      ofValue view.schema (.union selector (some value)) = .ok updated := by
  have switched : view.set key value =
      (selectorOf key >>= fun selector => ofValue view.schema (.union selector (some value))) := by
    simp [set, isUnion, Schema.kind, setVariant_eq_ofValue isUnion]
  rw [switched, isUnion]
  constructor
  · intro done
    obtain ⟨selector, named, built⟩ := bind_eq_ok.mp done
    cases key with
    | name name => cases named
    | index index =>
      -- What was built has a variant with the selector, so the index was not too large for it.
      have small := selector_lt_of_ofValue (isUnion ▸ accepted) built
      exact ⟨selector, congrArg _ (toUInt64_of_selectorOf named small), built⟩
  · rintro ⟨selector, rfl, built⟩
    rw [selectorOf_toUInt64, ok_bind]
    exact built

/-- A union is switched to a view exactly when the view is as the variant with the selector asks. -/
theorem setVariantView_ok_iff (isUnion : view.schema = .union variants) {child : Option View} :
    (∃ updated, view.setVariantView selector child = .ok updated) ↔
      variants[selector.toNat]? = some (child.map View.schema) := by
  simp only [setVariantView, isUnion]
  cases variants[selector.toNat]? with
  | none => simp
  | some variant =>
    cases variant with
    | none => cases child <;> simp
    | some schema =>
      cases child with
      | none => simp
      | some member =>
        -- Both are there, and then the schemas have to be the same.
        by_cases same : schema = member.schema <;> simp [same]

/-- A union that was switched to a view is made of the selector and the value of the view. -/
theorem ofValue_of_setVariantView (isUnion : view.schema = .union variants)
    (accepted : view.schema.Accepted) {child : Option View} {payload : Option Value}
    (held : Option.Rel (fun member value => member.schema.Represents value member.tree) child
      payload)
    {updated : View} (done : view.setVariantView selector child = .ok updated) :
    ofValue view.schema (.union selector payload) = .ok updated := by
  have named := (setVariantView_ok_iff isUnion).mp ⟨updated, done⟩
  simp only [setVariantView, isUnion, named] at done
  -- The new tree represents the union, so it is the one that is built for its value.
  cases held with
  | none =>
    obtain rfl := Except.ok.inj done
    have represents : view.schema.Represents (.union selector none)
        ((Tree.zero 0).withSelector selector) := by
      rw [isUnion]
      exact ⟨selector, none, _, rfl,
        Schema.representsVariant_iff.mpr (.inr ⟨named, rfl, Tree.zero_zero⟩), rfl⟩
    exact ofValue_of_represents accepted represents
  | @some member value inhabits =>
    simp only [Option.map_some, if_true] at done
    obtain rfl := Except.ok.inj done
    have represents : view.schema.Represents (.union selector (some value))
        (member.tree.withSelector selector) := by
      rw [isUnion]
      exact ⟨selector, some value, _, rfl,
        Schema.representsVariant_iff.mpr (.inl ⟨_, value, named, rfl, inhabits⟩), rfl⟩
    exact ofValue_of_represents accepted represents

/-- Setting a variant to a view of its schema is setting it to the value of that view. -/
theorem setView_eq_set_of_union (isUnion : view.schema = .union variants)
    (accepted : view.schema.Accepted) {index : UInt64} {child : View}
    (named : variants[index.toNat]? = some (some child.schema)) {value : Value}
    (inhabits : child.schema.Represents value child.tree) :
    ∃ updated, view.setView (.index index) child = .ok updated ∧
      view.set (.index index) value = .ok updated := by
  -- An index that names a variant is small enough to be a selector.
  obtain ⟨selector, rfl, number⟩ : ∃ selector : UInt32, index = selector.toUInt64 ∧
      selector.toNat = index.toNat := by
    have within := (List.getElem?_eq_some_iff.mp named).1
    have bounded := (isUnion ▸ accepted : (Schema.union variants).Accepted).variants_le
    have narrow : index.toUInt32.toNat = index.toNat := by
      rw [UInt64.toNat_toUInt32, Nat.mod_eq_of_lt (by omega)]
    exact ⟨index.toUInt32, UInt64.toNat_inj.mp (by rw [UInt32.toNat_toUInt64, narrow]), narrow⟩
  rw [← number] at named
  have matching : variants[selector.toNat]? = some ((some child).map View.schema) := named
  obtain ⟨updated, switched⟩ := (setVariantView_ok_iff isUnion).mpr matching
  refine ⟨updated, by simp [setView, isUnion, Schema.kind, selectorOf_toUInt64, switched], ?_⟩
  exact (set_eq_ok_of_union isUnion accepted).mpr
    ⟨selector, rfl, ofValue_of_setVariantView isUnion accepted (.some inhabits) switched⟩

/--
The member that is read from a union is the payload of its value, under the selector of it, and its
tree stands beside the selector.
-/
theorem union_of_get (isUnion : view.schema = .union variants) {before : Value}
    (represents : view.schema.Represents before view.tree) {key : Key} {member : View}
    (found : view.get key = .ok member) :
    ∃ (selector : UInt32) (value : Value), key = .index selector.toUInt64 ∧
      before = .union selector (some value) ∧ member.schema.Represents value member.tree ∧
      variants[selector.toNat]? = some (some member.schema) ∧
      view.tree = member.tree.withSelector selector := by
  obtain ⟨schema, tree⟩ := view
  obtain rfl : schema = .union variants := isUnion
  obtain ⟨selector, payload, node, rfl, chosen, rfl⟩ := represents
  have parts := Tree.unionParts_withSelector node chosen.lt_length
  cases key with
  | name name => cases found
  | index requested =>
    simp only [View.get, Schema.kind, variantAt, View.selector, View.unionParts, View.variant,
      parts, ok_bind, pure_eq_ok] at found
    -- Only the index that is the selector leads to the variant.
    split at found
    · cases found
    rename_i same
    rcases Schema.representsVariant_iff.mp chosen with
      ⟨own, value, named, rfl, inhabits⟩ | ⟨empty, rfl, _⟩
    · simp only [named, Option.join_some, Option.map_some] at found
      obtain rfl := Except.ok.inj found
      exact ⟨selector, value, congrArg _ (not_not.mp same), rfl, inhabits, named, rfl⟩
    · simp [empty] at found

/-- Setting the variant of a union to its own value changes nothing. -/
theorem set_get_of_union (isUnion : view.schema = .union variants) (accepted : view.schema.Accepted)
    {before : Value} (represents : view.schema.Represents before view.tree) {key : Key}
    {member : View} (found : view.get key = .ok member) (own : member.schema.Accepted)
    {value : Value} (read : member.toValue = .ok value) : view.set key value = .ok view := by
  obtain ⟨selector, payload, rfl, rfl, inhabits, _⟩ := union_of_get isUnion represents found
  have held := Schema.valueOf_of_represents _ own payload member.tree inhabits
  obtain rfl := Except.ok.inj (held.symm.trans read)
  -- The value of the union builds the tree that the union has.
  exact (set_eq_ok_of_union isUnion accepted).mpr
    ⟨selector, rfl, ofValue_of_represents accepted represents⟩

end Union

end Ssz.View
