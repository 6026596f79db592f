import Ssz.Proofs.Value.Normal
import Ssz.Proofs.Value.Report

/-! Inhabitants of schemas: the values for which trees are built, and no others. -/

namespace Ssz

/-- A value inhabits a schema: its form, its sizes and all its parts are as the schema says. -/
inductive Schema.Inhabits : Schema → Value → Prop
  | bool (bit : Bool) : Inhabits (.scalar .boolean) (.bool bit)
  | uint {type : Scalar} {number : BitVec 128} (integer : type ≠ .boolean)
      (small : number.toNat < 2 ^ (8 * type.byteLength)) : Inhabits (.scalar type) (.uint number)
  -- Only the widest integers are also given as their bytes.
  | uint256 (bytes : Chunk) : Inhabits (.scalar .uint256) (.uint256 bytes)
  | vector {element : Schema} {length : UInt64} {elements : List Value}
      (sized : elements.length = length.toNat) (each : ∀ value ∈ elements, element.Inhabits value) :
      Inhabits (.vector element length) (.sequence elements)
  | list {element : Schema} {maxLength : UInt64} {elements : List Value}
      (bounded : elements.length ≤ maxLength.toNat)
      (each : ∀ value ∈ elements, element.Inhabits value) :
      Inhabits (.list element maxLength) (.sequence elements)
  | bitvector {length : UInt64} {bits : List Bool} (sized : bits.length = length.toNat) :
      Inhabits (.bitvector length) (.bits bits)
  | bitlist {maxLength : UInt64} {bits : List Bool} (bounded : bits.length ≤ maxLength.toNat) :
      Inhabits (.bitlist maxLength) (.bits bits)
  | container {fields : List Field} {members : List Value}
      (each : List.Forall₂ (fun field value => field.schema.Inhabits value) fields members) :
      Inhabits (.container fields) (.container members)
  | empty {variants : List (Option Schema)} {selector : UInt32}
      (named : variants[selector.toNat]? = some none) :
      Inhabits (.union variants) (.union selector none)
  | variant {variants : List (Option Schema)} {selector : UInt32} {schema : Schema} {value : Value}
      (named : variants[selector.toNat]? = some (some schema)) (inner : schema.Inhabits value) :
      Inhabits (.union variants) (.union selector (some value))

namespace Schema

/-- The scalars that inhabit a type are those that fit it. -/
theorem inhabits_scalar {type : Scalar} {value : Value} :
    (scalar type).Inhabits value ↔ type.fits value := by
  -- The bound on a number is told in bits by the one and in bytes by the other.
  have width : 256 ^ type.byteLength = 2 ^ (8 * type.byteLength) := by rw [Nat.pow_mul]
  constructor
  · rintro (_ | ⟨integer, small⟩ | _)
    · rfl
    · simp [Scalar.fits, integer, width, small]
    · rfl
  · intro fits
    cases value with
    | bool bit =>
      obtain rfl : type = .boolean := by simpa [Scalar.fits] using fits
      exact .bool bit
    | uint number =>
      obtain ⟨integer, small⟩ : type ≠ .boolean ∧ number.toNat < 256 ^ type.byteLength := by
        simpa [Scalar.fits] using fits
      exact .uint integer (width ▸ small)
    | uint256 bytes =>
      obtain rfl : type = .uint256 := by simpa [Scalar.fits] using fits
      exact .uint256 bytes
    | _ => simp [Scalar.fits] at fits

/-- Entries at the same place of two related lists are related, and this relates the lists. -/
theorem forall₂_iff_getElem? {α β : Type} {related : α → β → Prop} {entries : List α}
    {others : List β} :
    List.Forall₂ related entries others ↔ entries.length = others.length ∧
      ∀ (i : Nat) (entry : α) (other : β), entries[i]? = some entry → others[i]? = some other →
        related entry other := by
  -- Lists of one length have an entry at the same places.
  rw [List.forall₂_iff_get]
  apply and_congr_right
  intro _
  constructor
  · intro each i entry other found also
    obtain ⟨within, rfl⟩ := List.getElem?_eq_some_iff.mp found
    obtain ⟨inside, rfl⟩ := List.getElem?_eq_some_iff.mp also
    exact each i within inside
  · intro each i within inside
    exact each i _ _ (List.getElem?_eq_getElem within) (List.getElem?_eq_getElem inside)

/-- A member of a container is found where both its field and its value are. -/
theorem part?_container {fields : List Field} {members : List Value} {index : Nat}
    {inner : Schema} {part : Value} :
    (container fields).part? (.container members) index = some (inner, part) ↔
      ∃ field, fields[index]? = some field ∧ members[index]? = some part ∧
        field.schema = inner := by
  simp only [part?]
  cases fields[index]? <;> cases members[index]? <;> simp [and_comm]

/-- The payload of a union is its only part, and belongs to the variant that is selected. -/
theorem part?_union {variants : List (Option Schema)} {selector : UInt32} {payload : Option Value}
    {index : Nat} {inner : Schema} {part : Value} :
    (union variants).part? (.union selector payload) index = some (inner, part) ↔
      index = 0 ∧ variants[selector.toNat]? = some (some inner) ∧ payload = some part := by
  -- A union without a payload has no part, and there is no second one.
  cases payload with
  | none => simp [part?]
  | some value =>
    cases index with
    | zero =>
      simp only [part?, Option.map_eq_some_iff, Prod.mk.injEq, Option.join_eq_some_iff,
        Option.some.injEq, true_and]
      constructor
      · rintro ⟨schema, named, rfl, rfl⟩
        exact ⟨named, rfl⟩
      · rintro ⟨named, rfl⟩
        exact ⟨inner, named, rfl, rfl⟩
    | succ index => simp [part?]

/-- The parts of a sequence are its elements. -/
theorem inhabits_parts_of_elements {schema element : Schema} {value : Value}
    {elements : List Value}
    (parts : ∀ index, schema.part? value index = elements[index]?.map (element, ·)) :
    (∀ index inner part, schema.part? value index = some (inner, part) → inner.Inhabits part) ↔
      ∀ member ∈ elements, element.Inhabits member := by
  -- A place among the parts is a place among the elements, so both say the same of each.
  simp only [parts, Option.map_eq_some_iff, Prod.mk.injEq]
  constructor
  · intro each member found
    obtain ⟨index, placed⟩ := List.getElem?_of_mem found
    exact each index element member ⟨member, placed, rfl, rfl⟩
  · rintro each index _ _ ⟨member, placed, rfl, rfl⟩
    exact each member (List.mem_of_getElem? placed)

/-- A value inhabits a schema when it has no fault itself and its parts inhabit their schemas. -/
theorem inhabits_iff_parts {schema : Schema} {value : Value} :
    schema.Inhabits value ↔ schema.fault? value = none ∧
      ∀ index inner part, schema.part? value index = some (inner, part) → inner.Inhabits part := by
  cases schema with
  | scalar type =>
    -- A scalar has no parts.
    simp [inhabits_scalar, fault?, part?]
  | vector element length =>
    cases value with
    | sequence elements =>
      -- The elements are the parts, so only their number can be a fault of the vector itself.
      rw [inhabits_parts_of_elements fun _ => rfl]
      constructor
      · intro inhabits
        cases inhabits with
        | vector sized each => exact ⟨by simp [fault?, sized], each⟩
      · rintro ⟨sound, each⟩
        exact .vector (by simpa [fault?] using sound) each
    | _ => exact ⟨nofun, fun ⟨sound, _⟩ => by simp [fault?] at sound⟩
  | list element maxLength =>
    cases value with
    | sequence elements =>
      rw [inhabits_parts_of_elements fun _ => rfl]
      constructor
      · intro inhabits
        cases inhabits with
        | list bounded each => exact ⟨by simp [fault?, bounded], each⟩
      · rintro ⟨sound, each⟩
        exact .list (by simpa [fault?] using sound) each
    | _ => exact ⟨nofun, fun ⟨sound, _⟩ => by simp [fault?] at sound⟩
  | bitvector length =>
    cases value with
    | bits bits =>
      constructor
      · intro inhabits
        cases inhabits with
        | bitvector sized => simp [fault?, sized, part?]
      · rintro ⟨sound, _⟩
        exact .bitvector (by simpa [fault?] using sound)
    | _ => exact ⟨nofun, fun ⟨sound, _⟩ => by simp [fault?] at sound⟩
  | bitlist maxLength =>
    cases value with
    | bits bits =>
      constructor
      · intro inhabits
        cases inhabits with
        | bitlist bounded => simp [fault?, bounded, part?]
      · rintro ⟨sound, _⟩
        exact .bitlist (by simpa [fault?] using sound)
    | _ => exact ⟨nofun, fun ⟨sound, _⟩ => by simp [fault?] at sound⟩
  | container fields =>
    cases value with
    | container members =>
      simp only [part?_container]
      constructor
      · intro inhabits
        cases inhabits with
        | container related =>
          obtain ⟨counted, each⟩ := forall₂_iff_getElem?.mp related
          refine ⟨by simp [fault?, counted], ?_⟩
          rintro index _ part ⟨field, named, placed, rfl⟩
          exact each index field part named placed
      · rintro ⟨sound, each⟩
        -- With as many members as fields, each field has its member at the same place.
        have counted : members.length = fields.length := by simpa [fault?] using sound
        refine .container (forall₂_iff_getElem?.mpr ⟨counted.symm, ?_⟩)
        intro index field part named placed
        exact each index field.schema part ⟨field, named, placed, rfl⟩
    | _ => exact ⟨nofun, fun ⟨sound, _⟩ => by simp [fault?] at sound⟩
  | union variants =>
    cases value with
    | union selector payload =>
      simp only [part?_union]
      constructor
      · intro inhabits
        cases inhabits with
        | empty named => simp [fault?, named]
        | variant named inner =>
          refine ⟨by simp [fault?, named], ?_⟩
          rintro _ schema part ⟨rfl, also, same⟩
          rw [named] at also
          obtain rfl := Option.some.inj (Option.some.inj also)
          obtain rfl := Option.some.inj same
          exact inner
      · rintro ⟨sound, each⟩
        cases named : variants[selector.toNat]? with
        | none => simp [fault?, named] at sound
        | some variant =>
          -- There is no fault only if both are there, or none of them.
          cases variant <;> cases payload <;> simp [fault?, named] at sound
          · exact .empty named
          · exact .variant named (each 0 _ _ ⟨rfl, named, rfl⟩)
    | _ => exact ⟨nofun, fun ⟨sound, _⟩ => by simp [fault?] at sound⟩

/-- A part of a value is smaller than the value. -/
theorem sizeOf_part?_lt {schema inner : Schema} {value part : Value} {index : Nat}
    (found : schema.part? value index = some (inner, part)) : sizeOf part < sizeOf value := by
  -- Only a value of the kind of its schema has parts, and those stand inside its constructor.
  cases schema <;> cases value <;> try cases found
  case vector.sequence element length elements =>
    simp only [part?, Option.map_eq_some_iff, Prod.mk.injEq] at found
    obtain ⟨_, placed, _, rfl⟩ := found
    have := List.sizeOf_lt_of_mem (List.mem_of_getElem? placed)
    simp only [Value.sequence.sizeOf_spec]
    omega
  case list.sequence element length elements =>
    simp only [part?, Option.map_eq_some_iff, Prod.mk.injEq] at found
    obtain ⟨_, placed, _, rfl⟩ := found
    have := List.sizeOf_lt_of_mem (List.mem_of_getElem? placed)
    simp only [Value.sequence.sizeOf_spec]
    omega
  case container.container fields members =>
    obtain ⟨_, _, placed, _⟩ := part?_container.mp found
    have := List.sizeOf_lt_of_mem (List.mem_of_getElem? placed)
    simp only [Value.container.sizeOf_spec]
    omega
  case union.union variants selector payload =>
    obtain ⟨_, _, rfl⟩ := part?_union.mp found
    simp only [Value.union.sizeOf_spec, Option.some.sizeOf_spec]
    omega

/-- The inhabitants of a schema are the values without a fault at any depth. -/
theorem inhabits_iff_faultless {schema : Schema} {value : Value} :
    schema.Inhabits value ↔ ∀ path, schema.faultAt value path = none := by
  constructor
  · intro inhabits path
    -- Each step of the path leads to a part, which inhabits its own schema.
    induction path generalizing schema value with
    | nil => exact (inhabits_iff_parts.mp inhabits).1
    | cons index path ih =>
      rw [faultAt]
      split
      · rename_i inner part found
        exact ih ((inhabits_iff_parts.mp inhabits).2 index inner part found)
      · rfl
  · intro faultless
    -- Parts are smaller, and their paths are those of the value that start with the part.
    induction size : sizeOf value using Nat.strong_induction_on generalizing schema value with
    | _ _ smaller =>
      refine inhabits_iff_parts.mpr ⟨faultless [], ?_⟩
      intro index inner part found
      refine smaller _ (size ▸ sizeOf_part?_lt found) ?_ rfl
      intro path
      have deeper := faultless (index :: path)
      rwa [faultAt, found] at deeper

/-- Building a tree succeeds for the inhabitants of a schema, and for no other value. -/
theorem treeOf_ok_iff {schema : Schema} (accepted : schema.Accepted) {value : Value} :
    (∃ tree, schema.treeOf value = .ok tree) ↔ schema.Inhabits value :=
  (reports_treeOf schema accepted value).ok_iff.trans inhabits_iff_faultless.symm

end Schema

end Ssz
