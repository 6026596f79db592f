import Ssz.Proofs.Schema.Layout
import Ssz.Proofs.Tree.Walk
import Ssz.Proofs.View.Replace

/-! Where members are placed: inside the tree of their parent, in order, and none over another. -/

namespace Ssz

namespace Slot

/-- The first bit of a slot in its chunk; a subtree counts as a chunk of its own. -/
def firstBit : Slot → Nat
  | subtree _ _ => 0
  | packed _ offset _ => 8 * offset
  | bit _ position => position

/-- The number of bits that a slot takes up in its chunk. -/
def bitLength : Slot → Nat
  | subtree _ _ => 256
  | packed _ _ type => 8 * type.byteLength
  | bit _ _ => 1

/-- Every slot takes up some bits. -/
theorem bitLength_pos (slot : Slot) : 0 < slot.bitLength := by
  cases slot with
  | subtree gindex schema => exact Nat.zero_lt_succ 255
  | packed gindex offset type => exact Nat.mul_pos (by decide) type.byteLength_pos
  | bit gindex position => exact Nat.one_pos

/-- Slots that share nothing: neither position lies below the other, or their bits do not meet. -/
def Disjoint (first second : Slot) : Prop :=
  Tree.Apart first.gindex.path second.gindex.path ∨
    first.firstBit + first.bitLength ≤ second.firstBit ∨
      second.firstBit + second.bitLength ≤ first.firstBit

end Slot

namespace Schema

/-- The number of members that a sequence, a bitfield or a container has room for. -/
def capacity : Schema → Nat
  | vector _ length | bitvector length => length.toNat
  | list _ maxLength | bitlist maxLength => maxLength.toNat
  | container fields => fields.length
  | scalar _ | union _ => 0

/-- The levels from the root of a composite value down to the node of a member. -/
def memberDepth (schema : Schema) : Nat :=
  match schema with
  -- A length or a selector is mixed in one level above the content.
  | list _ _ | bitlist _ | union _ => schema.depth + 1
  | _ => schema.depth

/-- The bits of the content that an element takes up: its own as a scalar, else a whole chunk. -/
def elementBits (element : Schema) : Nat :=
  match element.scalar? with
  | some type => 8 * type.byteLength
  | none => 256

/-- The bits of the content that a member takes up. -/
def memberBits : Schema → Nat
  | vector element _ | list element _ => element.elementBits
  | bitvector _ | bitlist _ => 1
  | _ => 256

/--
A slot in the chunk with a place is that of the element with a number: for scalars the bytes of the
content from the number times their width, and for other elements the whole subtree at the number.
-/
def PlacesElement (element : Schema) (number place : Nat) (slot : Slot) : Prop :=
  match element.scalar? with
  | some type => ∃ gindex offset, slot = .packed gindex offset type ∧
      32 * place + offset = number * type.byteLength ∧ offset + type.byteLength ≤ 32
  | none => ∃ gindex, slot = .subtree gindex element ∧ place = number

/-- A slot in the chunk with a place is that of the bit of the content with a number. -/
def PlacesBit (number place : Nat) (slot : Slot) : Prop :=
  ∃ gindex position, slot = .bit gindex position ∧ 256 * place + position = number ∧ position < 256

/-- A slot in the chunk or subtree with a place is that of the member with a number. -/
def Places (schema : Schema) (number place : Nat) (slot : Slot) : Prop :=
  match schema with
  | vector element _ | list element _ => element.PlacesElement number place slot
  | bitvector _ | bitlist _ => PlacesBit number place slot
  | container fields => ∃ field gindex, fields[number]? = some field ∧
      slot = .subtree gindex field.schema ∧ place = number
  | scalar _ | union _ => False

section Slots

variable {schema : Schema} {index : UInt64} {bound : Option UInt64} {slot other : Slot}

/-- The slot of an element lies on the level of the chunks, at the place of the element. -/
theorem placesElement_sequenceSlot (element : Schema) (index : UInt64) (level : Nat) :
    ∃ place : UInt64,
      (element.sequenceSlot index level).gindex = Gindex.ofDepthIndex level place ∧
      element.PlacesElement index.toNat place.toNat (element.sequenceSlot index level) := by
  simp only [sequenceSlot, PlacesElement]
  cases own : element.scalar? with
  | none => exact ⟨index, rfl, _, rfl, rfl⟩
  | some type =>
    refine ⟨_, rfl, _, _, rfl, ?_, ?_⟩
    · -- The quotient and the remainder of the number make up its first byte.
      rw [type.toNat_div_share, type.toNat_mod_share, ← type.perChunk_mul_byteLength,
        Nat.mul_right_comm, ← Nat.add_mul, Nat.div_add_mod]
    · rw [type.toNat_mod_share]
      exact type.scalar_le_chunk index.toNat

/-- The slot of a bit lies on the level of the chunks, at the place of the bit. -/
theorem placesBit_bitSlot (index : UInt64) (level : Nat) :
    ∃ place : UInt64, (bitSlot index level).gindex = Gindex.ofDepthIndex level place ∧
      PlacesBit index.toNat place.toNat (bitSlot index level) := by
  refine ⟨_, rfl, _, _, rfl, ?_⟩
  simp only [UInt64.toNat_div, UInt64.toNat_mod, UInt64.reduceToNat]
  omega

/-- A slot is found where there is room for a member with the number, and lies at its place. -/
theorem places_slotAt (single : schema.kind ≠ .union)
    (found : schema.slotAt index none = .ok slot) : index.toNat < schema.capacity ∧
      ∃ place : UInt64, slot.gindex = Gindex.ofDepthIndex schema.memberDepth place ∧
        schema.Places index.toNat place.toNat slot := by
  -- Lists and bitlists hand the level of their members to the same functions as the others.
  cases schema with
  | scalar type => cases found
  | vector element length =>
    obtain ⟨within, rfl⟩ := View.slotBelow_eq_ok.mp found
    exact ⟨within, placesElement_sequenceSlot element index _⟩
  | list element maxLength =>
    obtain ⟨within, rfl⟩ := View.slotBelow_eq_ok.mp found
    exact ⟨within, placesElement_sequenceSlot element index _⟩
  | bitvector length =>
    obtain ⟨within, rfl⟩ := View.slotBelow_eq_ok.mp found
    exact ⟨within, placesBit_bitSlot index _⟩
  | bitlist maxLength =>
    obtain ⟨within, rfl⟩ := View.slotBelow_eq_ok.mp found
    exact ⟨within, placesBit_bitSlot index _⟩
  | container fields =>
    obtain ⟨field, named, rfl⟩ := slotAt_container.mp found
    exact ⟨(List.getElem?_eq_some_iff.mp named).1, index, rfl, field, _, named, rfl, rfl⟩
  | union variants => exact absurd rfl single

/-- Every member that there is room for has a slot. -/
theorem exists_slotAt (within : index.toNat < schema.capacity) :
    ∃ slot, schema.slotAt index none = .ok slot := by
  -- The bound that is checked is the capacity, unless another one is given.
  cases schema with
  | scalar type => cases within
  | vector => exact ⟨_, View.slotBelow_eq_ok.mpr ⟨within, rfl⟩⟩
  | list => exact ⟨_, View.slotBelow_eq_ok.mpr ⟨within, rfl⟩⟩
  | bitvector => exact ⟨_, View.slotBelow_eq_ok.mpr ⟨within, rfl⟩⟩
  | bitlist => exact ⟨_, View.slotBelow_eq_ok.mpr ⟨within, rfl⟩⟩
  | container fields => exact ⟨_, slotAt_container.mpr ⟨_, List.getElem?_eq_getElem within, rfl⟩⟩
  | union variants => cases within

/-- A bound decides whether a slot is found, and not which one. -/
theorem slotAt_of_bound (found : schema.slotAt index none = .ok slot)
    (also : schema.slotAt index bound = .ok other) : other = slot := by
  -- Only lists look at the bound.
  cases schema with
  | list element maxLength =>
    obtain ⟨_, rfl⟩ := View.slotBelow_eq_ok.mp found
    obtain ⟨_, rfl⟩ := View.slotBelow_eq_ok.mp also
    rfl
  | bitlist maxLength =>
    obtain ⟨_, rfl⟩ := View.slotBelow_eq_ok.mp found
    obtain ⟨_, rfl⟩ := View.slotBelow_eq_ok.mp also
    rfl
  | _ => exact Except.ok.inj (also.symm.trans found)

end Slots

section Content

variable {schema element : Schema} {number another place elsewhere : Nat} {slot other : Slot}

/-- Elements lie one after the other, and each within a chunk. -/
theorem PlacesElement.bits (placed : element.PlacesElement number place slot) :
    256 * place + slot.firstBit = number * element.elementBits ∧
      slot.firstBit + element.elementBits ≤ 256 ∧ slot.bitLength = element.elementBits := by
  rw [PlacesElement] at placed
  rw [elementBits]
  cases own : element.scalar? with
  | none =>
    rw [own] at placed
    obtain ⟨_, rfl, rfl⟩ := placed
    exact ⟨Nat.mul_comm _ _, Nat.le_refl _, rfl⟩
  | some type =>
    rw [own] at placed
    obtain ⟨_, offset, rfl, start, stop⟩ := placed
    -- The same holds of the bytes, each of which has eight bits.
    refine ⟨?_, ?_, rfl⟩
    · simp only [Slot.firstBit, Nat.mul_left_comm number, ← start]
      omega
    · simp only [Slot.firstBit]
      omega

/--
Members lie in the content one after the other: counted in bits, each one starts at its number times
the bits of a member, and ends within the chunk that it starts in.
-/
theorem Places.bits (placed : schema.Places number place slot) :
    256 * place + slot.firstBit = number * schema.memberBits ∧
      slot.firstBit + schema.memberBits ≤ 256 ∧ slot.bitLength = schema.memberBits := by
  -- Bits have no room to spare, fields fill their chunks, and elements do what their schema says.
  cases schema with
  | vector element length => exact PlacesElement.bits placed
  | list element maxLength => exact PlacesElement.bits placed
  | bitvector length =>
    obtain ⟨_, position, rfl, rfl, within⟩ := placed
    exact ⟨(Nat.mul_one _).symm, within, rfl⟩
  | bitlist maxLength =>
    obtain ⟨_, position, rfl, rfl, within⟩ := placed
    exact ⟨(Nat.mul_one _).symm, within, rfl⟩
  | container fields =>
    obtain ⟨_, _, _, rfl, rfl⟩ := placed
    exact ⟨Nat.mul_comm _ _, Nat.le_refl _, rfl⟩
  | scalar | union => cases placed

/-- The chunks of elements are as many as their bits fill. -/
theorem elementChunks_eq (element : Schema) (count : Nat) :
    element.elementChunks count = (count * element.elementBits + 255) / 256 := by
  rw [elementChunks, elementBits]
  cases element.scalar? with
  | none =>
    simp only
    omega
  | some type =>
    -- Thirty-two bytes are as many bits as a chunk has.
    simp only [Nat.mul_left_comm count]
    omega

/-- The chunks of a content tree are as many as the bits of all its members fill. -/
theorem chunkCount_eq (room : 0 < schema.capacity) :
    schema.chunkCount = (schema.capacity * schema.memberBits + 255) / 256 := by
  -- A field takes up a whole chunk, and elements are counted by their own lemma.
  cases schema with
  | vector element length => exact elementChunks_eq element length.toNat
  | list element maxLength => exact elementChunks_eq element maxLength.toNat
  | bitvector | bitlist => simp only [chunkCount, capacity, memberBits, Nat.mul_one]
  | container fields =>
    simp only [chunkCount, capacity, memberBits]
    omega
  | scalar | union => cases room

/-- Members that there is room for lie in the chunks of the content tree. -/
theorem Places.lt_chunkCount (placed : schema.Places number place slot)
    (within : number < schema.capacity) : place < schema.chunkCount := by
  obtain ⟨start, _, width⟩ := placed.bits
  have some := slot.bitLength_pos
  -- The member ends where the next one would start, and the last one where the content ends.
  have last := Nat.mul_le_mul_right schema.memberBits within
  rw [Nat.succ_mul] at last
  rw [chunkCount_eq (Nat.zero_lt_of_lt within)]
  omega

/-- Of two members in one chunk the earlier one ends before the later one starts. -/
theorem Places.le_firstBit (placed : schema.Places number place slot)
    (also : schema.Places another place other) (earlier : number < another) :
    slot.firstBit + slot.bitLength ≤ other.firstBit := by
  obtain ⟨start, _, width⟩ := placed.bits
  obtain ⟨begin, _, _⟩ := also.bits
  -- As many chunks lie before both, so their first bits differ as their numbers do.
  have next := Nat.mul_le_mul_right schema.memberBits earlier
  rw [Nat.succ_mul] at next
  omega

end Content

section Levels

variable {schema : Schema}

/-- Members lie on the level of the chunks, or on the one below where a length is mixed in. -/
theorem memberDepth_eq (single : schema.kind ≠ .union) :
    schema.memberDepth = schema.depth + schema.hasLength.toNat := by
  cases schema with
  | union variants => exact absurd rfl single
  | _ => rfl

/-- Members lie at most one level below the content tree. -/
theorem memberDepth_bounds (schema : Schema) :
    schema.depth ≤ schema.memberDepth ∧ schema.memberDepth ≤ schema.depth + 1 := by
  cases schema <;> simp [memberDepth]

/-- Positions of members are words. -/
theorem Accepted.memberDepth_lt (accepted : schema.Accepted) : schema.memberDepth < 64 := by
  have deepest := accepted.depth_le
  have below := schema.memberDepth_bounds.2
  omega

/-- The level of the members has room for all chunks. -/
theorem chunkCount_le_memberDepth (schema : Schema) :
    schema.chunkCount ≤ 2 ^ schema.memberDepth :=
  Nat.le_trans (le_two_pow_depthFor _)
    (Nat.pow_le_pow_right (by decide) schema.memberDepth_bounds.1)

end Levels

/--
Where the member with a number lies: in a chunk, or as a subtree, that the content tree has room
for, at a position of its level, and there at the place that follows the members before it.
-/
structure Located (schema : Schema) (index place : UInt64) (slot : Slot) : Prop where
  /-- The slot is found among all members that there may be. -/
  found : schema.slotAt index none = .ok slot
  /-- A bound on the members in use finds the same slot or none. -/
  gated : ∀ bound other, schema.slotAt index bound = .ok other → other = slot
  /-- The place is that of one of the chunks. -/
  chunk : place.toNat < schema.chunkCount
  /-- The level is one that positions reach, and the place lies on it. -/
  level : schema.memberDepth < 64 ∧ place.toNat < 2 ^ schema.memberDepth
  /-- The position is made from the level and the place. -/
  made : slot.gindex = Gindex.ofDepthIndex schema.memberDepth place
  /-- The position lies as deep as the content tree, or one level deeper beside a length. -/
  deep : slot.gindex.depth = schema.depth + schema.hasLength.toNat
  /-- Beside a length the content is the left child of the root. -/
  content : schema.hasLength →
    Gindex.concat 2 (Gindex.ofDepthIndex schema.depth place) = some slot.gindex
  /-- The member has its bytes or bits of the content, or a subtree of its own. -/
  placed : schema.Places index.toNat place.toNat slot
  /-- The position of the member is that of its slot. -/
  element : schema.elementGindex index = .ok slot.gindex

section Located

variable {schema : Schema} {index another place elsewhere : UInt64} {slot other : Slot}

/-- Every member that an accepted schema has room for is located. -/
theorem Accepted.exists_located (accepted : schema.Accepted)
    (within : index.toNat < schema.capacity) : ∃ place slot, schema.Located index place slot := by
  have single : schema.kind ≠ .union := by
    intro isUnion
    obtain ⟨variants, rfl⟩ := union_of_kind isUnion
    cases within
  obtain ⟨slot, found⟩ := exists_slotAt within
  obtain ⟨_, place, made, placed⟩ := places_slotAt single found
  -- The capacity bounds the place by the chunks, and the chunks fit on the level.
  have chunk := placed.lt_chunkCount within
  have inside := Nat.lt_of_lt_of_le chunk (chunkCount_le_memberDepth schema)
  have shallow := accepted.memberDepth_lt
  have level := memberDepth_eq single
  refine ⟨place, slot, found, fun _ _ => slotAt_of_bound found, chunk, ⟨shallow, inside⟩, made, ?_,
    ?_, placed, ?_⟩
  · rw [made, Gindex.depth_ofDepthIndex shallow inside, level]
  · intro live
    rw [live, Bool.toNat_true] at level
    rw [made, level]
    exact Gindex.two_concat_ofDepthIndex (level ▸ shallow)
      (Nat.lt_of_lt_of_le chunk (le_two_pow_depthFor _))
  · rw [elementGindex, found]
    rfl

/-- Different members lie in slots that share nothing. -/
theorem Located.disjoint (first : schema.Located index place slot)
    (second : schema.Located another elsewhere other) (different : index ≠ another) :
    slot.Disjoint other := by
  by_cases same : place = elsewhere
  · -- In one chunk they lie one after the other.
    subst same
    rcases Nat.lt_or_gt_of_ne fun same => different (UInt64.toNat_inj.mp same) with before | after
    · exact .inr (.inl (first.placed.le_firstBit second.placed before))
    · exact .inr (.inr (second.placed.le_firstBit first.placed after))
  · -- Different chunks are reached by different turns, and by equally many.
    refine .inl (Tree.apart_of_length ?_ ?_)
    · rw [Gindex.length_path, Gindex.length_path, first.deep, second.deep]
    · rw [first.made, second.made, Gindex.path_ofDepthIndex first.level.1 first.level.2,
        Gindex.path_ofDepthIndex second.level.1 second.level.2]
      intro turns
      exact same (UInt64.toNat_inj.mp (eq_of_turnsTo first.level.2 second.level.2 turns))

end Located

section Fields

variable {fields : List Field} {name : String} {number : Nat}

/-- A name stands for the number of the one field that has it. -/
theorem Accepted.fieldIndex_iff (accepted : (container fields).Accepted) :
    (container fields).fieldIndex name = .ok number ↔
      ∃ field, fields[number]? = some field ∧ field.name = name := by
  rw [fieldIndex_eq_ok, List.findIdx?_eq_some_iff_getElem]
  constructor
  · intro ⟨within, same, _⟩
    exact ⟨_, List.getElem?_eq_getElem within, by simpa using same⟩
  · intro ⟨field, placed, same⟩
    obtain ⟨within, rfl⟩ := List.getElem?_eq_some_iff.mp placed
    refine ⟨within, by simpa using same, ?_⟩
    -- An earlier field of the same name would be a duplicate.
    intro earlier before also
    have distinct := List.pairwise_iff_getElem.mp (List.pairwise_map.mp accepted.nodup_names)
    have different := distinct earlier number (Nat.lt_trans before within) within before
    exact different (by simpa [same] using also)

/-- A field is found under its name where it is found under its number. -/
theorem Accepted.located_fieldIndex {schema : Schema} (accepted : schema.Accepted)
    (named : schema.fieldIndex name = .ok number) :
    ∃ index place slot, index.toNat = number ∧ schema.Located index place slot ∧
      schema.slot (.name name) none = .ok slot ∧ schema.fieldGindex name = .ok slot.gindex := by
  cases schema with
  | container fields =>
    -- The fields are few enough for the number to be a word.
    have counted := accepted.toNat_fieldIndex named
    obtain ⟨field, placed, _⟩ := accepted.fieldIndex_iff.mp named
    have within : (UInt64.ofNat number).toNat < (container fields).capacity := by
      rw [counted]
      exact (List.getElem?_eq_some_iff.mp placed).1
    obtain ⟨place, slot, located⟩ := accepted.exists_located within
    refine ⟨_, place, slot, counted, located, ?_, ?_⟩
    · rw [Schema.slot, named, ok_bind, located.found]
    · -- The place of a field is its number.
      obtain ⟨_, _, _, _, whole⟩ := located.placed
      rw [fieldGindex, named, ok_bind, located.made, UInt64.toNat_inj.mp whole]
      rfl
  | _ => cases named

end Fields

/--
What it means that a schema lays out its values: its depth is the least one with room for its
chunks, constructors store nothing else than the schema tells, and the members have slots in the
content tree, one each, which are found by numbers and by names and do not meet.
-/
structure LaidOut (schema : Schema) : Prop where
  /-- The content tree is as deep as needed and not deeper. -/
  least : ∀ depth, schema.chunkCount ≤ 2 ^ depth ↔ schema.depth ≤ depth
  /-- The content tree is not deeper than the greatest depth. -/
  shallow : schema.depth ≤ 62
  /-- The sizes, the number of chunks and the depth are stored as they are. -/
  stored : ∀ layout, schema.Carries layout ↔ layout = schema.layout
  /-- Each member that there is room for has its slot. -/
  located : ∀ index, index.toNat < schema.capacity → ∃ place slot, schema.Located index place slot
  /-- Other members than those that there is room for have none. -/
  bounded : schema.kind ≠ .union → ∀ index slot, schema.slotAt index none = .ok slot →
    index.toNat < schema.capacity
  /-- The slots of different members share nothing. -/
  separate : ∀ first place slot, schema.Located first place slot →
    ∀ second elsewhere other, schema.Located second elsewhere other → first ≠ second →
      slot.Disjoint other
  /-- Each field is named, and each name is that of one field. -/
  names : ∀ fields, schema = .container fields → ∀ name number,
    schema.fieldIndex name = .ok number ↔
      ∃ field, fields[number]? = some field ∧ field.name = name
  /-- Under its name a field is found where it is found under its number. -/
  named : ∀ name number, schema.fieldIndex name = .ok number →
    ∃ index place slot, index.toNat = number ∧ schema.Located index place slot ∧
      schema.slot (.name name) none = .ok slot ∧ schema.fieldGindex name = .ok slot.gindex

/-- Every accepted schema lays out its values. -/
theorem Accepted.laidOut {schema : Schema} (accepted : schema.Accepted) : schema.LaidOut where
  least _ := depthFor_le_iff.symm
  shallow := accepted.depth_le
  stored := schema.carries_iff
  located _ := accepted.exists_located
  bounded single _ _ found := (places_slotAt single found).1
  separate _ _ _ first _ _ _ second := first.disjoint second
  names fields container _ _ := by
    subst container
    exact accepted.fieldIndex_iff
  named _ _ := accepted.located_fieldIndex

/-- The last of as many roots as there can be ends the left half of the lowest level of all. -/
theorem Accepted.laidOut_roots :
    (list bytes32 0x4000000000000000).depth ≤ 62 ∧
      (list bytes32 0x4000000000000000).elementGindex 0x3fffffffffffffff =
        .ok 0xbfffffffffffffff := by
  have accepted : (list bytes32 0x4000000000000000).Accepted := ⟨accepted_bytes32, by decide⟩
  have laidOut := accepted.laidOut
  obtain ⟨place, slot, located⟩ := laidOut.located 0x3fffffffffffffff (by decide)
  -- Roots are subtrees, so the place is the number.
  obtain ⟨_, _, whole⟩ := located.placed
  obtain rfl := UInt64.toNat_inj.mp whole
  refine ⟨laidOut.shallow, ?_⟩
  rw [located.element, located.made]
  rfl

end Schema

end Ssz
