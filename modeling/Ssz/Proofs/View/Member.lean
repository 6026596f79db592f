import Ssz.Proofs.View.Slot

/-! Members of composite views: reading one of them, and what replacing one makes of the value. -/

namespace Ssz

namespace Value

/-- The member of a composite value with a number: an element, a bit, or a field. -/
def member? : Value → Nat → Option Value
  | sequence elements, index => elements[index]?
  | .bits flags, index => flags[index]?.map bool
  | container members, index => members[index]?
  | _, _ => none

/-- The composite value with a member written at a number, which may be the one after the last. -/
def write : Value → Nat → Value → Value
  | sequence elements, index, member => sequence (overwrite elements index member)
  | .bits flags, index, bool bit => .bits (overwrite flags index bit)
  | container members, index, member => container (overwrite members index member)
  | value, _, _ => value

end Value

namespace Schema

/-- The schemas of the kind of unions are the unions. -/
theorem union_of_kind {schema : Schema} (isUnion : schema.kind = .union) :
    ∃ variants, schema = union variants := by
  cases schema with
  | union variants => exact ⟨variants, rfl⟩
  | _ => cases isUnion

variable {fields : List Field} {members : List Value} {nodes : List Tree}

/-- The slots of a container are the subtrees of its fields. -/
theorem slotAt_container {index : UInt64} {bound : Option UInt64} {slot : Slot} :
    (container fields).slotAt index bound = .ok slot ↔ ∃ field, fields[index.toNat]? = some field ∧
      .subtree (Gindex.ofDepthIndex (container fields).depth index) field.schema = slot := by
  rw [slotAt]
  cases fields[index.toNat]? <;> simp

/-- The number of a field is found again in the position of its subtree. -/
theorem Accepted.indexAtDepth_field (accepted : (container fields).Accepted) {index : UInt64}
    {field : Field} (named : fields[index.toNat]? = some field) :
    (Gindex.ofDepthIndex (container fields).depth index).indexAtDepth = index := by
  have within := (List.getElem?_eq_some_iff.mp named).1
  exact Gindex.indexAtDepth_ofDepthIndex accepted.depth_lt
    (Nat.lt_of_lt_of_le within (container_fits fields))

/-- The member and the node of a field stand at the place of the field. -/
theorem RepresentsFields.getElem? (represents : RepresentsFields fields members nodes) {i : Nat}
    {field : Field} (named : fields[i]? = some field) :
    ∃ member node, members[i]? = some member ∧ nodes[i]? = some node ∧
      field.schema.Represents member node := by
  induction fields generalizing members nodes i with
  | nil => simp at named
  | cons first fields ih =>
    obtain ⟨name, schema⟩ := first
    -- The three lists are gone through together until the field is reached.
    match members, nodes, represents with
    | member :: members, node :: nodes, ⟨head, tail⟩ =>
      cases i with
      | zero =>
        obtain rfl : ⟨name, schema⟩ = field := by simpa using named
        exact ⟨member, node, rfl, rfl, head⟩
      | succ i => exact ih tail (by simpa using named)

/-- A member and its node can be put in the place of a field. -/
theorem RepresentsFields.overwrite (represents : RepresentsFields fields members nodes) {i : Nat}
    {field : Field} (named : fields[i]? = some field) {member : Value} {node : Tree}
    (fresh : field.schema.Represents member node) :
    RepresentsFields fields (Ssz.overwrite members i member) (Ssz.overwrite nodes i node) := by
  induction fields generalizing members nodes i with
  | nil => simp at named
  | cons first fields ih =>
    obtain ⟨name, schema⟩ := first
    -- What stands before and after the field is kept.
    match members, nodes, represents with
    | _ :: members, _ :: nodes, ⟨head, tail⟩ =>
      cases i with
      | zero =>
        obtain rfl : ⟨name, schema⟩ = field := by simpa using named
        exact ⟨fresh, tail⟩
      | succ i => exact ⟨head, ih tail (by simpa using named)⟩

/-- Nodes that each represent some member of their field make up a container. -/
theorem RepresentsFields.of_forall (sized : nodes.length = fields.length)
    (each : ∀ (i : Nat) (field : Field) (node : Tree), fields[i]? = some field →
      nodes[i]? = some node → ∃ member, field.schema.Represents member node) :
    ∃ members, RepresentsFields fields members nodes := by
  induction fields generalizing nodes with
  | nil =>
    obtain rfl := List.length_eq_zero_iff.mp sized
    exact ⟨[], trivial⟩
  | cons first fields ih =>
    obtain ⟨name, schema⟩ := first
    cases nodes with
    | nil => simp at sized
    | cons node nodes =>
      -- The first node has a member, and so has each later one under its own field.
      obtain ⟨member, head⟩ := each 0 ⟨name, schema⟩ node rfl rfl
      have later := fun i field other named placed =>
        each (i + 1) field other (by simpa using named) (by simpa using placed)
      obtain ⟨members, tail⟩ := ih (by simpa using sized) later
      exact ⟨member :: members, head, tail⟩

end Schema

namespace View

/-- The bound of a list is its length; other views have none. -/
theorem bound_withLength {schema : Schema} (live : schema.hasLength) (content : Tree)
    (length : UInt64) :
    (⟨schema, content.withLength length⟩ : View).bound = .ok (some length) := by
  simp [bound, live, Tree.listParts_withLength]

/-- A slot below a bound is found exactly for the numbers below it. -/
theorem slotBelow_eq_ok {index bound : UInt64} {slot found : Slot} :
    Schema.slotBelow index bound slot = .ok found ↔ index.toNat < bound.toNat ∧ slot = found := by
  simp only [Schema.slotBelow, UInt64.lt_iff_toNat_lt]
  -- The index is compared as a word, which its number bounds alike.
  split
  · rename_i below
    simp [below]
  · rename_i beyond
    simp [beyond]

/-- A slot of a list is found exactly for the numbers below the length beside its content. -/
theorem slotBelow_withLength {schema : Schema} (live : schema.hasLength) {content : Tree}
    {count : Nat} {maxLength index : UInt64} (sized : count ≤ maxLength.toNat)
    {bound : Option UInt64} {slot found : Slot}
    (bounded : (⟨schema, content.withLength (UInt64.ofNat count)⟩ : View).bound = .ok bound)
    (below : Schema.slotBelow index (bound.getD maxLength) slot = .ok found) :
    index.toNat < count ∧ slot = found := by
  rw [bound_withLength live] at bounded
  obtain rfl := Except.ok.inj bounded
  -- The length was made from a number of elements that fits in a word.
  simpa [toNat_ofNat_of_le_word sized] using slotBelow_eq_ok.mp below

section Members

variable {schema : Schema} {value : Value} {tree : Tree} {bound : Option UInt64} {index : UInt64}
  {slot : Slot}

/-- The slot of a member leads to the member's own tree, or to a leaf made for it. -/
theorem memberIn_of_represents (accepted : schema.Accepted)
    (represents : schema.Represents value tree) (single : schema.kind ≠ .union)
    (bounded : (⟨schema, tree⟩ : View).bound = .ok bound)
    (found : schema.slotAt index bound = .ok slot) :
    ∃ member node, value.member? index.toNat = some member ∧ slot.schema.Accepted ∧
      slot.schema.Represents member node ∧
      (⟨schema, tree⟩ : View).memberIn slot = .ok ⟨slot.schema, node⟩ := by
  cases schema with
  | scalar type => cases found
  | vector element length =>
    obtain ⟨elements, rfl, sized, holds⟩ := represents
    obtain ⟨within, rfl⟩ := slotBelow_eq_ok.mp found
    -- A vector has room for every element below its length.
    have fits := Nat.le_trans (Schema.elementChunks_le element within)
      (Schema.vector_fits element length)
    obtain ⟨member, node, read, inhabits, reached, _⟩ :=
      memberIn_sequence accepted.depth_lt fits holds (sized ▸ within)
    rw [Schema.schema_sequenceSlot]
    exact ⟨member, node, read, accepted.1, inhabits, reached _⟩
  | list element maxLength =>
    obtain ⟨elements, content, rfl, sized, holds, rfl⟩ := represents
    obtain ⟨within, rfl⟩ := slotBelow_withLength rfl sized bounded found
    have fits := Schema.list_fits element (Nat.le_trans within sized)
    obtain ⟨member, node, read, inhabits, _, reached⟩ :=
      memberIn_sequence accepted.depth_lt fits holds within
    rw [Schema.schema_sequenceSlot]
    -- The content lies one level below, beside the length.
    have deeper := accepted.depth_le
    exact ⟨member, node, read, accepted.1, inhabits, reached _ _ (by omega)⟩
  | bitvector length =>
    obtain ⟨bits, rfl, sized, rfl⟩ := represents
    obtain ⟨within, rfl⟩ := slotBelow_eq_ok.mp found
    have fits := Schema.bitvector_fits length
    obtain ⟨bit, node, read, inhabits, reached, _⟩ :=
      @memberIn_bits bits _ index accepted.depth_lt (by omega) (sized ▸ within)
    exact ⟨.bool bit, node, by simp [Value.member?, read], trivial, inhabits, reached _⟩
  | bitlist maxLength =>
    obtain ⟨bits, rfl, sized, rfl⟩ := represents
    obtain ⟨within, rfl⟩ := slotBelow_withLength rfl sized bounded found
    have fits := Schema.bitlist_fits (Nat.le_trans within sized)
    obtain ⟨bit, node, read, inhabits, _, reached⟩ :=
      memberIn_bits accepted.depth_lt fits within
    have deeper := accepted.depth_le
    exact ⟨.bool bit, node, by simp [Value.member?, read], trivial, inhabits,
      reached _ _ (by omega)⟩
  | container fields =>
    obtain ⟨members, nodes, rfl, each, rfl⟩ := represents
    obtain ⟨field, named, rfl⟩ := Schema.slotAt_container.mp found
    -- A field has a node of its own at its number.
    obtain ⟨member, node, read, placed, inhabits⟩ := each.getElem? named
    have within := (List.getElem?_eq_some_iff.mp named).1
    have room := Nat.lt_of_lt_of_le within (Schema.container_fits fields)
    have reached := Tree.navigate_ofNodes accepted.depth_lt room placed
    refine ⟨member, node, read, accepted.1.of_mem (List.mem_of_getElem? named), inhabits, ?_⟩
    simp [memberIn, reached, Slot.schema]
  | union variants => exact absurd rfl single

/-- Writing a member of the slot's schema gives the tree of the value with that member replaced. -/
theorem writeView_of_represents (accepted : schema.Accepted)
    (represents : schema.Represents value tree) (single : schema.kind ≠ .union)
    (bounded : (⟨schema, tree⟩ : View).bound = .ok bound)
    (found : schema.slotAt index bound = .ok slot) {member : Value} {node : Tree}
    (fresh : slot.schema.Represents member node) :
    ∃ updated, schema.Represents (value.write index.toNat member) updated ∧
      (⟨schema, tree⟩ : View).writeView slot ⟨slot.schema, node⟩ = .ok updated := by
  cases schema with
  | scalar type => cases found
  | vector element length =>
    obtain ⟨elements, rfl, sized, holds⟩ := represents
    obtain ⟨within, rfl⟩ := slotBelow_eq_ok.mp found
    have fits := Nat.le_trans (Schema.elementChunks_le element within)
      (Schema.vector_fits element length)
    rw [Schema.schema_sequenceSlot] at fresh ⊢
    -- Writing below the length replaces an element and keeps their number.
    have inside : index.toNat < elements.length := sized ▸ within
    obtain ⟨updated, refilled, written, _⟩ :=
      writeView_sequence accepted.depth_lt fits holds (Nat.le_of_lt inside) fresh
    refine ⟨updated, ⟨_, rfl, ?_, refilled⟩, written _⟩
    rw [overwrite_eq_set _ inside, List.length_set, sized]
  | list element maxLength =>
    obtain ⟨elements, content, rfl, sized, holds, rfl⟩ := represents
    obtain ⟨within, rfl⟩ := slotBelow_withLength rfl sized bounded found
    have fits := Schema.list_fits element (Nat.le_trans within sized)
    rw [Schema.schema_sequenceSlot] at fresh ⊢
    obtain ⟨updated, refilled, _, written⟩ :=
      writeView_sequence accepted.depth_lt fits holds (Nat.le_of_lt within) fresh
    have deeper := accepted.depth_le
    -- The stored length stays right, because no element is added.
    have same : (overwrite elements index.toNat member).length = elements.length := by
      rw [overwrite_eq_set _ within, List.length_set]
    refine ⟨_, ⟨_, updated, rfl, same ▸ sized, refilled, ?_⟩, written _ _ (by omega)⟩
    rw [same, Tree.withLength]
  | bitvector length =>
    obtain ⟨bits, rfl, sized, rfl⟩ := represents
    obtain ⟨within, rfl⟩ := slotBelow_eq_ok.mp found
    have fits := Schema.bitvector_fits length
    obtain ⟨bit, rfl, _⟩ := asBool_of_represents fresh
    have inside : index.toNat < bits.length := sized ▸ within
    obtain ⟨written, _⟩ := @writeView_bits bits _ index accepted.depth_lt (by omega)
      (Nat.le_of_lt inside) _ _ fresh
    refine ⟨_, ⟨_, rfl, ?_, rfl⟩, written _⟩
    rw [overwrite_eq_set _ inside, List.length_set, sized]
  | bitlist maxLength =>
    obtain ⟨bits, rfl, sized, rfl⟩ := represents
    obtain ⟨within, rfl⟩ := slotBelow_withLength rfl sized bounded found
    have fits := Schema.bitlist_fits (Nat.le_trans within sized)
    obtain ⟨bit, rfl, _⟩ := asBool_of_represents fresh
    obtain ⟨_, written⟩ := writeView_bits accepted.depth_lt fits (Nat.le_of_lt within) fresh
    have deeper := accepted.depth_le
    have same : (overwrite bits index.toNat bit).length = bits.length := by
      rw [overwrite_eq_set _ within, List.length_set]
    refine ⟨_, ⟨_, rfl, same ▸ sized, ?_⟩, written _ _ (by omega)⟩
    rw [same, Tree.withLength]
  | container fields =>
    obtain ⟨members, nodes, rfl, each, rfl⟩ := represents
    obtain ⟨field, named, rfl⟩ := Schema.slotAt_container.mp found
    have within := (List.getElem?_eq_some_iff.mp named).1
    have room := Nat.lt_of_lt_of_le within (Schema.container_fits fields)
    -- The node of the field is replaced, and all others are kept.
    have reached : index.toNat ≤ nodes.length := each.length_eq.2 ▸ Nat.le_of_lt within
    have written := Tree.update_ofNodes accepted.depth_lt room reached node
    exact ⟨_, ⟨_, _, rfl, each.overwrite named fresh, rfl⟩,
      by simp [writeView, Slot.schema, written]⟩
  | union variants => exact absurd rfl single

end Members

end View

end Ssz
