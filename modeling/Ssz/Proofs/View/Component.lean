import Ssz.Proofs.Value.Root
import Ssz.Proofs.View.Reachable

/-! Reading members of views: which keys name a component, and what is read under each of them. -/

namespace Ssz

namespace Schema

/-- A key names a component that is there: an index in use, a field, or the selected variant. -/
def Present (schema : Schema) (value : Value) (key : Key) : Prop :=
  match schema, value, key with
  -- Only lists have a length of their own, that of all other sequences is declared.
  | vector _ length, _, .index index | bitvector length, _, .index index => index < length
  | list _ _, .sequence elements, .index index => index.toNat < elements.length
  | bitlist _, .bits bits, .index index => index.toNat < bits.length
  | container fields, _, .index index => index.toNat < fields.length
  | container fields, _, .name name => ∃ field ∈ fields, field.name = name
  | union _, .union selector (some _), .index index => index = selector.toUInt64
  | _, _, _ => False

/-- The component of a value that a key names, with the schema that is declared for it. -/
def component? (schema : Schema) (value : Value) (key : Key) : Option (Schema × Value) :=
  match schema, value, key with
  | vector element _, .sequence elements, .index index
  | list element _, .sequence elements, .index index =>
    elements[index.toNat]?.map fun member => (element, member)
  | bitvector _, .bits bits, .index index | bitlist _, .bits bits, .index index =>
    bits[index.toNat]?.map fun bit => (scalar .boolean, .bool bit)
  | container fields, .container members, .index index =>
    (fields.zip members)[index.toNat]?.map fun (field, member) => (field.schema, member)
  | container fields, .container members, .name name =>
    ((fields.zip members).find? fun (field, _) => field.name = name).map
      fun (field, member) => (field.schema, member)
  | union variants, .union selector (some payload), .index index =>
    if index = selector.toUInt64 then
      variants[selector.toNat]?.join.map fun variant => (variant, payload)
    else none
  | _, _, _ => none

/-- A name leads to a slot exactly if it is that of a field. -/
theorem slot_name_ok_iff {schema : Schema} (accepted : schema.Accepted) (value : Value)
    {name : String} {bound : Option UInt64} :
    (∃ slot, schema.slot (.name name) bound = .ok slot) ↔ schema.Present value (.name name) := by
  cases schema with
  | container fields =>
    constructor
    · intro ⟨slot, found⟩
      obtain ⟨number, named, _⟩ := bind_eq_ok.mp found
      obtain ⟨within, same, _⟩ :=
        List.findIdx?_eq_some_iff_getElem.mp (fieldIndex_eq_ok.mp named)
      exact ⟨_, List.getElem_mem within, by simpa using same⟩
    · intro ⟨field, declared, same⟩
      -- The search finds this field, or an earlier one with the name.
      obtain ⟨number, first⟩ : ∃ number,
          fields.findIdx? (fun field => field.name = name) = some number :=
        ⟨_, List.findIdx?_eq_some_of_exists ⟨field, declared, by simpa using same⟩⟩
      have named := fieldIndex_eq_ok.mpr first
      have within := (List.findIdx?_eq_some_iff_getElem.mp first).1
      have placed : fields[(UInt64.ofNat number).toNat]? = some fields[number] := by
        rw [accepted.toNat_fieldIndex named, List.getElem?_eq_getElem within]
      exact ⟨_, bind_eq_ok.mpr ⟨number, named, slotAt_container.mpr ⟨_, placed, rfl⟩⟩⟩
  | _ => simp [slot, fieldIndex, Present]

/-- The first entry of its kind is found in pairs as it is found alone. -/
theorem find?_zip {α β : Type} {entries : List α} (others : List β) {p : α → Bool} {number : Nat}
    (first : entries.findIdx? p = some number) :
    (entries.zip others).find? (fun (entry, _) => p entry) = (entries.zip others)[number]? := by
  induction entries generalizing others number with
  | nil => cases first
  | cons entry entries ih =>
    cases others with
    | nil => simp
    | cons other others =>
      rw [List.findIdx?_cons] at first
      -- The search ends at the entry, or goes on with a number that is one less.
      by_cases here : p entry
      · obtain rfl : 0 = number := by simpa [here] using first
        simp [here]
      · obtain ⟨later, rest, rfl⟩ : ∃ later, entries.findIdx? p = some later ∧
            later + 1 = number := by simpa [here] using first
        simpa [here] using ih others rest

/-- The name of a field names the same component as the number of the field. -/
theorem component?_name {schema : Schema} {name : String} {index : UInt64}
    (numbered : schema.fieldIndex name = .ok index.toNat) (value : Value) :
    schema.component? value (.name name) = schema.component? value (.index index) := by
  -- The field found by the name is the one at that number, in the fields and beside its member.
  cases schema with
  | container fields =>
    have first := fieldIndex_eq_ok.mp numbered
    cases value with
    | container members => simp only [component?, find?_zip members first]
    | _ => rfl
  | _ => cases numbered

end Schema

namespace View

section Single

variable {schema : Schema} {tree : Tree} {view : View} {value : Value} {key : Key}

/-- A view of a value has a bound, and a number has a slot below it exactly if it is in use. -/
theorem slotAt_ok_iff (represents : schema.Represents value tree) (single : schema.kind ≠ .union) :
    ∃ bound, (⟨schema, tree⟩ : View).bound = .ok bound ∧ ∀ index : UInt64,
      (∃ slot, schema.slotAt index bound = .ok slot) ↔ schema.Present value (.index index) := by
  -- Lists are bounded by their stored length, and all others by what the schema declares.
  cases schema with
  | scalar type => exact ⟨_, rfl, by simp [Schema.slotAt, Schema.Present]⟩
  | vector element length =>
    refine ⟨_, rfl, ?_⟩
    simp [Schema.slotAt, slotBelow_eq_ok, Schema.Present, UInt64.lt_iff_toNat_lt]
  | bitvector length =>
    refine ⟨_, rfl, ?_⟩
    simp [Schema.slotAt, slotBelow_eq_ok, Schema.Present, UInt64.lt_iff_toNat_lt]
  | list element maxLength =>
    obtain ⟨elements, content, rfl, sized, _, rfl⟩ := represents
    -- The stored length is the number of elements, which fits in a word.
    refine ⟨_, bound_withLength rfl content _, ?_⟩
    simp [Schema.slotAt, slotBelow_eq_ok, Schema.Present, toNat_ofNat_of_le_word sized]
  | bitlist maxLength =>
    obtain ⟨bits, rfl, sized, rfl⟩ := represents
    refine ⟨_, bound_withLength rfl _ _, ?_⟩
    simp [Schema.slotAt, slotBelow_eq_ok, Schema.Present, toNat_ofNat_of_le_word sized]
  | container fields =>
    refine ⟨_, rfl, ?_⟩
    simp [Schema.slotAt_container, Schema.Present, List.getElem?_eq_some_iff]
  | union variants => exact absurd rfl single

/-- A key leads to a slot exactly if it names a component that is there. -/
theorem slotOf_ok_iff (accepted : view.schema.Accepted)
    (represents : view.schema.Represents value view.tree) (single : view.schema.kind ≠ .union) :
    (∃ slot, view.slotOf key = .ok slot) ↔ view.schema.Present value key := by
  -- The bound is there, so only the key decides.
  obtain ⟨bound, bounded, numbered⟩ := slotAt_ok_iff represents single
  have located : view.slotOf key = view.schema.slot key bound := by rw [slotOf, bounded, ok_bind]
  rw [located]
  cases key with
  | index index => exact numbered index
  | name name => exact Schema.slot_name_ok_iff accepted value

/-- The member with a number is the component under that number. -/
theorem component_of_slotAt (represents : schema.Represents value tree) {bound : Option UInt64}
    {index : UInt64} {slot : Slot} (placed : schema.slotAt index bound = .ok slot) {member : Value}
    (named : value.member? index.toNat = some member) :
    schema.component? value (.index index) = some (slot.schema, member) := by
  -- Elements and bits all have one schema, and fields each have their own.
  cases schema with
  | scalar type => cases placed
  | vector element length =>
    obtain ⟨elements, rfl, _⟩ := represents
    obtain ⟨_, rfl⟩ := slotBelow_eq_ok.mp placed
    rw [Schema.schema_sequenceSlot]
    exact Option.map_eq_some_iff.mpr ⟨member, named, rfl⟩
  | list element maxLength =>
    obtain ⟨elements, content, rfl, _⟩ := represents
    obtain ⟨_, rfl⟩ := slotBelow_eq_ok.mp placed
    rw [Schema.schema_sequenceSlot]
    exact Option.map_eq_some_iff.mpr ⟨member, named, rfl⟩
  | bitvector length =>
    obtain ⟨bits, rfl, _⟩ := represents
    obtain ⟨_, rfl⟩ := slotBelow_eq_ok.mp placed
    obtain ⟨bit, held, rfl⟩ := Option.map_eq_some_iff.mp named
    exact Option.map_eq_some_iff.mpr ⟨bit, held, rfl⟩
  | bitlist maxLength =>
    obtain ⟨bits, rfl, _⟩ := represents
    obtain ⟨_, rfl⟩ := slotBelow_eq_ok.mp placed
    obtain ⟨bit, held, rfl⟩ := Option.map_eq_some_iff.mp named
    exact Option.map_eq_some_iff.mpr ⟨bit, held, rfl⟩
  | container fields =>
    obtain ⟨members, nodes, rfl, _⟩ := represents
    obtain ⟨field, declared, rfl⟩ := Schema.slotAt_container.mp placed
    -- Fields and members are paired in the order that both have.
    have paired : (fields.zip members)[index.toNat]? = some (field, member) :=
      List.getElem?_zip_eq_some.mpr ⟨declared, named⟩
    exact Option.map_eq_some_iff.mpr ⟨_, paired, rfl⟩
  | union variants =>
    obtain ⟨selector, payload, node, rfl, _⟩ := represents
    cases named

/-- The member with the number that a key names is the component under the key. -/
theorem component_of_slotOf (accepted : view.schema.Accepted)
    (represents : view.schema.Represents value view.tree)
    {slot : Slot} (located : view.slotOf key = .ok slot) {number : Nat}
    (numbered : view.schema.numberOf key = .ok number) {member : Value}
    (named : value.member? number = some member) :
    view.schema.component? value key = some (slot.schema, member) := by
  obtain ⟨bound, _, located⟩ := bind_eq_ok.mp located
  obtain ⟨index, same, placed⟩ := Schema.numberOf_of_slot accepted located
  obtain rfl := Except.ok.inj (numbered.symm.trans same)
  -- An index is the number itself, and a name stands for the number of its field.
  have component := component_of_slotAt represents placed named
  cases key with
  | index own =>
    obtain rfl : own = index := UInt64.toNat_inj.mp (Except.ok.inj numbered)
    exact component
  | name name => rw [Schema.component?_name numbered, component]

/-- The members of other views than unions are the components of the value. -/
theorem component_of_get (accepted : view.schema.Accepted)
    (represents : view.schema.Represents value view.tree) (single : view.schema.kind ≠ .union)
    {member : View} (found : view.get key = .ok member) :
    ∃ component, view.schema.component? value key = some (member.schema, component) ∧
      member.schema.Represents component member.tree := by
  obtain ⟨slot, number, component, node, located, rfl, numbered, holds⟩ :=
    holds_of_get accepted represents single found
  exact ⟨component, component_of_slotOf accepted represents located numbered holds.named,
    holds.represents⟩

/-- Other views than unions have members under the keys of the components that are there. -/
theorem get_ok_iff (accepted : view.schema.Accepted)
    (represents : view.schema.Represents value view.tree) (single : view.schema.kind ≠ .union) :
    (∃ member, view.get key = .ok member) ↔ view.schema.Present value key := by
  rw [← slotOf_ok_iff accepted represents single, get_eq_memberIn single]
  constructor
  · intro ⟨member, found⟩
    obtain ⟨slot, located, _⟩ := bind_eq_ok.mp found
    exact ⟨slot, located⟩
  · intro ⟨slot, located⟩
    -- Whatever has a slot can be read.
    obtain ⟨_, _, node, _, holds⟩ := holds_of_slotOf accepted represents single located
    exact ⟨_, bind_eq_ok.mpr ⟨slot, located, holds.read⟩⟩

end Single

section Union

variable {view : View} {variants : List (Option Schema)} {value : Value} {key : Key}

/-- The member of a union is the payload of the value. -/
theorem component_of_get_union (isUnion : view.schema = .union variants)
    (represents : view.schema.Represents value view.tree) {member : View}
    (found : view.get key = .ok member) :
    ∃ component, view.schema.component? value key = some (member.schema, component) ∧
      member.schema.Represents component member.tree := by
  obtain ⟨selector, component, rfl, rfl, inhabits, named, _⟩ :=
    union_of_get isUnion represents found
  exact ⟨component, by simp [isUnion, Schema.component?, named], inhabits⟩

/-- A union has a member under the index of the selected variant, if the variant has a value. -/
theorem get_ok_iff_of_union (isUnion : view.schema = .union variants)
    (represents : view.schema.Represents value view.tree) :
    (∃ member, view.get key = .ok member) ↔ view.schema.Present value key := by
  constructor
  · intro ⟨member, found⟩
    obtain ⟨selector, component, rfl, rfl, _⟩ := union_of_get isUnion represents found
    rw [isUnion]
    rfl
  · intro present
    obtain ⟨schema, tree⟩ := view
    obtain rfl : schema = .union variants := isUnion
    obtain ⟨selector, payload, node, rfl, chosen, rfl⟩ := represents
    have parts := Tree.unionParts_withSelector node chosen.lt_length
    cases key with
    | name name => cases payload <;> cases present
    | index index =>
      cases payload with
      | none => cases present
      | some component =>
        obtain rfl : index = selector.toUInt64 := present
        -- The variant that is selected has a schema, as there is a payload.
        rcases Schema.representsVariant_iff.mp chosen with ⟨own, _, named, _⟩ | ⟨_, none, _⟩
        · exact ⟨⟨own, node⟩, by simp [View.get, Schema.kind, variantAt, View.selector,
            View.unionParts, View.variant, parts, named]⟩
        · cases none

end Union

/--
Reading gives the right component: a reachable view has a value, a key is accepted exactly if it
names a component of it that is there, and the member that is read has the schema declared for that
component, the component as its value, and the root that is computed from the component alone.
-/
theorem Reachable.get_reads_component {view : View} (reachable : view.Reachable) :
    ∃ value, view.toValue = .ok value ∧ ∀ key,
      ((∃ member, view.get key = .ok member) ↔ view.schema.Present value key) ∧
      ∀ member, view.get key = .ok member →
        ∃ component, view.schema.component? value key = some (member.schema, component) ∧
          member.toValue = .ok component ∧
          ∀ config, member.schema.rootOf config component = .ok member.root := by
  have canonical := reachable.canonical
  obtain ⟨value, read, _, represents⟩ := canonical.rebuilt
  refine ⟨value, read, fun key => ?_⟩
  -- The payload is the only component of a union, all other members lie in slots.
  obtain ⟨accepts, component⟩ : ((∃ member, view.get key = .ok member) ↔
      view.schema.Present value key) ∧ ∀ member, view.get key = .ok member →
        ∃ component, view.schema.component? value key = some (member.schema, component) ∧
          member.schema.Represents component member.tree := by
    by_cases isUnion : view.schema.kind = .union
    · obtain ⟨variants, isUnion⟩ := Schema.union_of_kind isUnion
      exact ⟨get_ok_iff_of_union isUnion represents,
        fun _ => component_of_get_union isUnion represents⟩
    · exact ⟨get_ok_iff canonical.accepted represents isUnion,
        fun _ => component_of_get canonical.accepted represents isUnion⟩
  refine ⟨accepts, fun member found => ?_⟩
  obtain ⟨component, named, inhabits⟩ := component member found
  -- The tree of the member represents the component, so it tells the value and has the root.
  have accepted := (canonical.get found).accepted
  refine ⟨component, named, Schema.valueOf_of_represents _ accepted _ _ inhabits, fun config => ?_⟩
  rw [Schema.rootOf_eq config _ accepted, Schema.treeOf_of_represents _ accepted _ _ inhabits]
  rfl

/-- The second of three short integers is there, and a fourth is not, though it would have room. -/
theorem Reachable.get_reads_component_list :
    ∃ view member, View.ofValue (.list (.scalar .uint16) 5)
        (.sequence [.uint 10, .uint 20, .uint 30]) = .ok view ∧
      view.get (.index 1) = .ok member ∧ member.schema = .scalar .uint16 ∧
      member.toValue = .ok (.uint 20) ∧
      (Schema.scalar .uint16).rootOf .standard (.uint 20) = .ok member.root ∧
      ¬ ∃ other, view.get (.index 3) = .ok other := by
  have accepted : (Schema.list (.scalar .uint16) 5).Accepted := ⟨trivial, rfl⟩
  have built : View.ofValue (.list (.scalar .uint16) 5) (.sequence [.uint 10, .uint 20, .uint 30]) =
      .ok ⟨.list (.scalar .uint16) 5,
        (Tree.leafOfBytes [10, 0, 20, 0, 30, 0]).withLength 3⟩ := by cbv
  obtain ⟨value, read, reads⟩ := (Reachable.ofValue accepted built).get_reads_component
  obtain rfl : Value.sequence [.uint 10, .uint 20, .uint 30] = value := Except.ok.inj read
  -- The index is below the number of elements, and the other one is not.
  obtain ⟨member, found⟩ := (reads (.index 1)).1.mpr (by decide : 1 < 3)
  obtain ⟨component, named, told, root⟩ := (reads (.index 1)).2 member found
  obtain ⟨schema, tree⟩ := member
  obtain ⟨rfl, rfl⟩ := Prod.mk.inj (Option.some.inj named)
  exact ⟨_, _, built, found, rfl, told, root _, fun other => absurd ((reads (.index 3)).1.mp other)
    (by decide : ¬ 3 < 3)⟩

end View

end Ssz
