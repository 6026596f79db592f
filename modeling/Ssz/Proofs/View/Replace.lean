import Ssz.Proofs.Value.Inhabits
import Ssz.Proofs.View.Member

/-! Updates of views replace one member of the value, and leave all other members as they are. -/

namespace Ssz

/-- The composite value with the member at a number replaced, which has to be there already. -/
def Value.replace : Value → Nat → Value → Value
  | sequence elements, index, member => sequence (elements.set index member)
  | .bits flags, index, bool bit => .bits (flags.set index bit)
  | container members, index, member => container (members.set index member)
  | value, _, _ => value

/-- Writing at the number of a member replaces that member. -/
theorem Value.write_eq_replace {value old : Value} {index : Nat}
    (found : value.member? index = some old) (member : Value) :
    value.write index member = value.replace index member := by
  cases value with
  | sequence elements =>
    have within := (List.getElem?_eq_some_iff.mp found).1
    simp [write, replace, overwrite_eq_set member within]
  | bits flags =>
    simp only [member?, Option.map_eq_some_iff] at found
    obtain ⟨bit, placed, _⟩ := found
    have within := (List.getElem?_eq_some_iff.mp placed).1
    -- Only truth values are written into bits.
    cases member with
    | bool fresh => simp [write, replace, overwrite_eq_set fresh within]
    | _ => rfl
  | container members =>
    have within := (List.getElem?_eq_some_iff.mp found).1
    simp [write, replace, overwrite_eq_set member within]
  | _ => cases found

/-- Replacing a member by itself changes nothing. -/
theorem Value.replace_self {value member : Value} {index : Nat}
    (found : value.member? index = some member) : value.replace index member = value := by
  -- Setting the place of a list to its own entry leaves the list as it is.
  cases value with
  | sequence elements =>
    obtain ⟨within, rfl⟩ := List.getElem?_eq_some_iff.mp found
    simp [replace]
  | bits flags =>
    simp only [member?, Option.map_eq_some_iff] at found
    obtain ⟨bit, placed, rfl⟩ := found
    obtain ⟨within, rfl⟩ := List.getElem?_eq_some_iff.mp placed
    simp [replace]
  | container members =>
    obtain ⟨within, rfl⟩ := List.getElem?_eq_some_iff.mp found
    simp [replace]
  | _ => cases found

/-- The number of the member that a key names: its own, or the place of the field with its name. -/
def Schema.numberOf (schema : Schema) : Key → Except ViewError Nat
  | .index index => .ok index.toNat
  | .name name => schema.fieldIndex name

/-- The number of a field is the place of the first field with the name. -/
theorem Schema.fieldIndex_eq_ok {fields : List Field} {name : String} {number : Nat} :
    (container fields).fieldIndex name = .ok number ↔
      fields.findIdx? (fun field => field.name = name) = some number := by
  rw [fieldIndex]
  cases fields.findIdx? fun field => field.name = name <;> simp

/-- The number of a field of an accepted container is small enough for a word. -/
theorem Schema.Accepted.toNat_fieldIndex {fields : List Field}
    (accepted : (container fields).Accepted) {name : String} {number : Nat}
    (named : (container fields).fieldIndex name = .ok number) :
    (UInt64.ofNat number).toNat = number := by
  have within := (List.findIdx?_eq_some_iff_getElem.mp (fieldIndex_eq_ok.mp named)).1
  exact toNat_ofNat_of_le_level accepted.depth_lt
    (Nat.le_trans (Nat.le_of_lt within) (container_fits fields))

/-- A key leads to the slot of the member with the number that it names. -/
theorem Schema.numberOf_of_slot {schema : Schema} (accepted : schema.Accepted) {key : Key}
    {bound : Option UInt64} {slot : Slot} (found : schema.slot key bound = .ok slot) :
    ∃ index : UInt64, schema.numberOf key = .ok index.toNat ∧
      schema.slotAt index bound = .ok slot := by
  cases key with
  | index index => exact ⟨index, rfl, found⟩
  | name name =>
    obtain ⟨number, named, numbered⟩ := bind_eq_ok.mp found
    refine ⟨_, ?_, numbered⟩
    rw [numberOf, named]
    -- Only fields have names.
    cases schema with
    | container fields => rw [accepted.toNat_fieldIndex named]
    | _ => cases named

namespace View

/-- The slot of the member under a key, among the members in use. -/
def slotOf (view : View) (key : Key) : Except ViewError Slot := do
  view.schema.slot key (← view.bound)

section Single

variable {view : View} {key : Key}

/-- Other views than unions read the member in the slot of a key. -/
theorem get_eq_memberIn (single : view.schema.kind ≠ .union) :
    view.get key = (view.slotOf key >>= view.memberIn) := by
  simp only [get, slotOf, bind_assoc]

/-- Other views than unions are written at the slot of a key, once the value has a tree. -/
theorem set_eq_writeView (single : view.schema.kind ≠ .union) (value : Value) :
    view.set key value = (do
      let slot ← view.slotOf key
      let node ← slot.schema.treeOf value
      return view.withTree (← view.writeView slot ⟨slot.schema, node⟩)) := by
  simp only [set, slotOf, bind_assoc, writeValue_eq_writeView]

/-- Other views than unions are written at the slot of a key, with the tree of the member. -/
theorem setView_eq_writeView (single : view.schema.kind ≠ .union) (member : View) :
    view.setView key member = (do
      let slot ← view.slotOf key
      return view.withTree (← view.writeView slot member)) := by
  simp only [setView, slotOf, bind_assoc]

end Single

/--
A slot of a view with a value: the member with a number is read from it, and any other member of
its schema can be written to it.
-/
structure Holds (view : View) (value : Value) (slot : Slot) (number : Nat) (member : Value)
    (node : Tree) : Prop where
  accepted : slot.schema.Accepted
  named : value.member? number = some member
  represents : slot.schema.Represents member node
  read : view.memberIn slot = .ok ⟨slot.schema, node⟩
  written : ∀ fresh tree, slot.schema.Represents fresh tree →
    ∃ updated, view.schema.Represents (value.replace number fresh) updated ∧
      view.writeView slot ⟨slot.schema, tree⟩ = .ok updated

/-- The slot of a key in a canonical view holds the member that the key names. -/
theorem holds_of_slotOf {view : View} (accepted : view.schema.Accepted) {value : Value}
    (represents : view.schema.Represents value view.tree) (single : view.schema.kind ≠ .union)
    {key : Key} {slot : Slot} (found : view.slotOf key = .ok slot) :
    ∃ number member node, view.schema.numberOf key = .ok number ∧
      view.Holds value slot number member node := by
  -- The key numbers the member, and its slot is the place of that number.
  obtain ⟨bound, bounded, found⟩ := bind_eq_ok.mp found
  obtain ⟨index, numbered, placed⟩ := Schema.numberOf_of_slot accepted found
  obtain ⟨member, node, read, own, inhabits, reached⟩ :=
    memberIn_of_represents accepted represents single bounded placed
  refine ⟨index.toNat, member, node, numbered, own, read, inhabits, reached, ?_⟩
  intro fresh tree inserted
  rw [← Value.write_eq_replace read]
  exact writeView_of_represents accepted represents single bounded placed inserted

section Members

variable {view : View} {before : Value} {key : Key}

/-- A member that is read lies in a slot, and has the schema and the tree that the slot holds. -/
theorem holds_of_get (accepted : view.schema.Accepted)
    (represents : view.schema.Represents before view.tree) (single : view.schema.kind ≠ .union)
    {member : View} (found : view.get key = .ok member) :
    ∃ slot number old node, view.slotOf key = .ok slot ∧ member = ⟨slot.schema, node⟩ ∧
      view.schema.numberOf key = .ok number ∧ view.Holds before slot number old node := by
  -- Reading goes through the slot, which holds the member in its schema and tree.
  rw [get_eq_memberIn single] at found
  obtain ⟨slot, located, found⟩ := bind_eq_ok.mp found
  obtain ⟨number, old, node, numbered, holds⟩ :=
    holds_of_slotOf accepted represents single located
  exact ⟨slot, number, old, node, located, Except.ok.inj (found.symm.trans holds.read), numbered,
    holds⟩

/-- A member is set exactly where one is read, and to the inhabitants of its schema only. -/
theorem set_ok_iff (accepted : view.schema.Accepted)
    (represents : view.schema.Represents before view.tree) (single : view.schema.kind ≠ .union)
    (value : Value) :
    (∃ updated, view.set key value = .ok updated) ↔
      ∃ member, view.get key = .ok member ∧ member.schema.Inhabits value := by
  rw [set_eq_writeView single, get_eq_memberIn single]
  cases located : view.slotOf key with
  | error fault => simp
  | ok slot =>
    obtain ⟨number, old, node, _, holds⟩ := holds_of_slotOf accepted represents single located
    simp only [ok_bind, holds.read, Except.ok.injEq, exists_eq_left']
    rw [← Schema.treeOf_ok_iff holds.accepted]
    -- Once the value has a tree, nothing is left that could fail.
    cases built : slot.schema.treeOf value with
    | error fault => simp
    | ok tree =>
      have inhabits := Schema.represents_of_treeOf _ holds.accepted value tree built
      obtain ⟨updated, _, written⟩ := holds.written _ tree inhabits
      simp [written]

/-- Setting a member replaces it, as it is read, by the normal form of the value it is set to. -/
theorem toValue_set (accepted : view.schema.Accepted)
    (represents : view.schema.Represents before view.tree) (single : view.schema.kind ≠ .union)
    {value : Value} {member updated : View} (found : view.get key = .ok member)
    (done : view.set key value = .ok updated) :
    ∃ number old, view.schema.numberOf key = .ok number ∧ before.member? number = some old ∧
      member.toValue = .ok old ∧ updated.schema = view.schema ∧
      updated.toValue = .ok (before.replace number (member.schema.normal value)) := by
  obtain ⟨slot, number, old, node, located, rfl, numbered, holds⟩ :=
    holds_of_get accepted represents single found
  rw [set_eq_writeView single, located, ok_bind] at done
  obtain ⟨tree, built, done⟩ := bind_eq_ok.mp done
  -- What is written represents the normal form of the value, and is read back as that.
  have inhabits := Schema.represents_of_treeOf _ holds.accepted value tree built
  obtain ⟨refilled, replaced, written⟩ := holds.written _ tree inhabits
  rw [written, ok_bind] at done
  obtain rfl := Except.ok.inj done
  exact ⟨number, old, numbered, holds.named,
    Schema.valueOf_of_represents _ holds.accepted old node holds.represents, rfl,
    Schema.valueOf_of_represents _ accepted _ _ replaced⟩

/-- Setting a member to a view of its schema is setting it to the value of that view. -/
theorem setView_eq_set (accepted : view.schema.Accepted)
    (represents : view.schema.Represents before view.tree) (single : view.schema.kind ≠ .union)
    {member child : View} (found : view.get key = .ok member) (same : member.schema = child.schema)
    {value : Value} (inhabits : child.schema.Represents value child.tree) :
    ∃ updated, view.setView key child = .ok updated ∧ view.set key value = .ok updated := by
  obtain ⟨slot, number, old, node, located, rfl, _, holds⟩ :=
    holds_of_get accepted represents single found
  obtain ⟨schema, tree⟩ := child
  obtain rfl : slot.schema = schema := same
  -- The tree that is built for the value is the one that the view has.
  have built := Schema.treeOf_of_represents _ holds.accepted value tree inhabits
  obtain ⟨updated, _, written⟩ := holds.written value tree inhabits
  rw [set_eq_writeView single, setView_eq_writeView single]
  exact ⟨view.withTree updated, by simp [located, written], by simp [located, built, written]⟩

/-- Setting a member to its own value changes nothing. -/
theorem set_get (accepted : view.schema.Accepted)
    (represents : view.schema.Represents before view.tree) (single : view.schema.kind ≠ .union)
    {member : View} (found : view.get key = .ok member) {value : Value}
    (read : member.toValue = .ok value) : view.set key value = .ok view := by
  obtain ⟨slot, number, old, node, located, rfl, _, holds⟩ :=
    holds_of_get accepted represents single found
  have held := Schema.valueOf_of_represents _ holds.accepted old node holds.represents
  obtain rfl := Except.ok.inj (held.symm.trans read)
  have built := Schema.treeOf_of_represents _ holds.accepted old node holds.represents
  obtain ⟨updated, replaced, written⟩ := holds.written old node holds.represents
  -- The value stays the same, and so does the only tree that represents it.
  rw [Value.replace_self holds.named] at replaced
  have first := Schema.treeOf_of_represents _ accepted _ _ replaced
  have second := Schema.treeOf_of_represents _ accepted _ _ represents
  obtain rfl := Except.ok.inj (first.symm.trans second)
  rw [set_eq_writeView single]
  simp [located, built, written, withTree]

end Members

end View

end Ssz
