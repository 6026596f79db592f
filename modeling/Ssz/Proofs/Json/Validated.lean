import Ssz.Proofs.Json.Schema

/-! Schemas in texts: whatever is read keeps all rules, and is read again from what is written. -/

namespace Ssz

namespace JsonValue

/-- Cases are the same exactly if their names and their contents are. -/
theorem ofCase_inj {name other : String} {content also : JsonValue} :
    ofCase name content = ofCase other also ↔ name = other ∧ content = also := by
  simp [ofCase]

section Members

variable {members : List (String × JsonValue)}

/-- No member has a name that is not among the names. -/
theorem named_eq_nil {name : String} (unused : name ∉ members.map Prod.fst) :
    named name (members.map fun member => (some member.1, member.2)) = [] := by
  rw [named, List.filterMap_map, List.filterMap_eq_nil_iff]
  intro member inside
  refine if_neg fun same => unused ?_
  exact List.mem_map.mpr ⟨member, inside, Option.some.inj same⟩

/-- A member is the only one with its name where the names are all different. -/
theorem named_of_mem (distinct : (members.map Prod.fst).Nodup) {member : String × JsonValue}
    (inside : member ∈ members) :
    named member.1 (members.map fun member => (some member.1, member.2)) = [member.2] := by
  -- The name occurs nowhere after its member, and nowhere before it.
  induction members with
  | nil => cases inside
  | cons first rest ih =>
    obtain ⟨new, distinct⟩ := List.nodup_cons.mp distinct
    rw [List.map_cons]
    rcases List.mem_cons.mp inside with rfl | later
    · rw [named_cons_self, named_eq_nil new]
    · rw [named_cons_other, ih distinct later]
      intro same
      exact new (same ▸ List.mem_map_of_mem later)

/-- A record of members with different names holds their contents. -/
theorem holds_ofRecord (distinct : (members.map Prod.fst).Nodup) :
    (ofRecord members).Holds (members.map Prod.fst) (members.map Prod.snd) := by
  -- Every member has a name that is asked for, so none has to be passed over.
  refine ⟨fun member inside => ?_, ?_⟩
  · obtain ⟨own, listed, rfl⟩ := List.mem_map.mp inside
    exact ⟨own.1, rfl, .inl (List.mem_map_of_mem listed)⟩
  · rw [List.map_map, List.map_map]
    exact List.map_congr_left fun member inside => named_of_mem distinct inside

end Members

end JsonValue

mutual

/-- The JSON form of a schema is whole. -/
theorem Schema.isWhole_toJson : (schema : Schema) → schema.toJson.isWhole = true
  -- Only a faulty text has a broken value, and no form of a schema contains one.
  | .scalar _ | .bitvector _ | .bitlist _ => rfl
  | .vector element _ | .list element _ => by
    simp [toJson, JsonValue.ofCase, JsonValue.ofRecord, JsonValue.isWhole,
      JsonValue.membersWhole, element.isWhole_toJson]
  | .container fields => by
    simp [toJson, JsonValue.ofCase, JsonValue.ofRecord, JsonValue.isWhole,
      JsonValue.membersWhole, Schema.elementsWhole_fieldsToJson fields]
  | .union variants => by
    simp [toJson, JsonValue.ofCase, JsonValue.ofRecord, JsonValue.isWhole,
      JsonValue.membersWhole, Schema.elementsWhole_variantsToJson variants]

/-- The JSON forms of fields are whole. -/
theorem Schema.elementsWhole_fieldsToJson : (fields : List Field) →
    JsonValue.elementsWhole (Schema.fieldsToJson fields) = true
  | [] => rfl
  | ⟨_, schema⟩ :: rest => by
    simp [fieldsToJson, JsonValue.elementsWhole, JsonValue.ofRecord, JsonValue.isWhole,
      JsonValue.membersWhole, schema.isWhole_toJson, Schema.elementsWhole_fieldsToJson rest]

/-- The JSON forms of variants are whole. -/
theorem Schema.elementsWhole_variantsToJson : (variants : List (Option Schema)) →
    JsonValue.elementsWhole (Schema.variantsToJson variants) = true
  -- The empty variant is written as null, which is whole.
  | [] => rfl
  | none :: rest => by
    simp [variantsToJson, JsonValue.elementsWhole, JsonValue.isWhole,
      Schema.elementsWhole_variantsToJson rest]
  | some schema :: rest => by
    simp [variantsToJson, JsonValue.elementsWhole, schema.isWhole_toJson,
      Schema.elementsWhole_variantsToJson rest]

end

mutual

/-- The JSON form of a schema spells it, within the levels of any other value that does. -/
theorem Schema.Spelled.toJson : {levels : Nat} → {value : JsonValue} → {schema : Schema} →
    Schema.Spelled levels value schema → Schema.Spelled levels schema.toJson schema
  -- The form nests just as deep as the schema, so it needs no more levels than any spelling.
  | _, _, _, .scalar _ => .scalar (.inl rfl)
  | _, _, _, .vector _ nested => .vector (JsonValue.holds_ofRecord (by simp)) nested.toJson
  | _, _, _, .list _ nested => .list (JsonValue.holds_ofRecord (by simp)) nested.toJson
  | _, _, _, .bitvector _ => .bitvector (JsonValue.holds_ofRecord (by simp))
  | _, _, _, .bitlist _ => .bitlist (JsonValue.holds_ofRecord (by simp))
  | _, _, _, .container _ nested =>
    .container (JsonValue.holds_ofRecord (by simp)) nested.toJson
  | _, _, _, .union _ nested => .union (JsonValue.holds_ofRecord (by simp)) nested.toJson

/-- The JSON forms of fields spell them. -/
theorem Schema.SpelledFields.toJson : {levels : Nat} → {parts : List JsonValue} →
    {fields : List Field} → Schema.SpelledFields levels parts fields →
      Schema.SpelledFields levels (Schema.fieldsToJson fields) fields
  | _, _, _, .nil => .nil
  | _, _, _, .cons _ nested later =>
    .cons (JsonValue.holds_ofRecord (by simp)) nested.toJson later.toJson

/-- The JSON forms of variants spell them. -/
theorem Schema.SpelledVariants.toJson : {levels : Nat} → {parts : List JsonValue} →
    {variants : List (Option Schema)} → Schema.SpelledVariants levels parts variants →
      Schema.SpelledVariants levels (Schema.variantsToJson variants) variants
  | _, _, _, .nil => .nil
  | _, _, _, .none later => .none later.toJson
  | _, _, _, .some nested later => .some nested.toJson later.toJson

end

/-- A value names one scalar type at most. -/
theorem Scalar.NamedBy.unique {type other : Scalar} {levels : Nat} {value : JsonValue}
    (spelled : type.NamedBy levels value) (also : other.NamedBy levels value) : type = other :=
  Option.some.inj ((ofJson?_eq_some.mpr spelled).symm.trans (ofJson?_eq_some.mpr also))

mutual

/-- A value spells one schema at most. -/
theorem Schema.Spelled.unique : {levels : Nat} → {value : JsonValue} → {schema other : Schema} →
    Schema.Spelled levels value schema → Schema.Spelled levels value other → schema = other
  -- The name of the outermost case is that of one kind only.
  | _, _, _, _, .scalar named, second => by
    generalize outer : JsonValue.ofCase _ _ = value at second
    cases second with
    | scalar also =>
      obtain rfl := (JsonValue.ofCase_inj.mp outer).2
      rw [named.unique also]
    | _ => simp [JsonValue.ofCase_inj] at outer
  | _, _, _, _, .vector holds nested, second => by
    generalize outer : JsonValue.ofCase _ _ = value at second
    cases second with
    | vector also again =>
      obtain rfl := (JsonValue.ofCase_inj.mp outer).2
      have same := holds.unique also
      simp only [List.cons.injEq, JsonValue.natural.injEq, and_true, UInt64.toNat_inj] at same
      obtain ⟨rfl, rfl⟩ := same
      rw [nested.unique again]
    | _ => simp [JsonValue.ofCase_inj] at outer
  | _, _, _, _, .list holds nested, second => by
    generalize outer : JsonValue.ofCase _ _ = value at second
    cases second with
    | list also again =>
      obtain rfl := (JsonValue.ofCase_inj.mp outer).2
      have same := holds.unique also
      simp only [List.cons.injEq, JsonValue.natural.injEq, and_true, UInt64.toNat_inj] at same
      obtain ⟨rfl, rfl⟩ := same
      rw [nested.unique again]
    | _ => simp [JsonValue.ofCase_inj] at outer
  | _, _, _, _, .bitvector holds, second => by
    generalize outer : JsonValue.ofCase _ _ = value at second
    cases second with
    | bitvector also =>
      obtain rfl := (JsonValue.ofCase_inj.mp outer).2
      simpa [UInt64.toNat_inj] using holds.unique also
    | _ => simp [JsonValue.ofCase_inj] at outer
  | _, _, _, _, .bitlist holds, second => by
    generalize outer : JsonValue.ofCase _ _ = value at second
    cases second with
    | bitlist also =>
      obtain rfl := (JsonValue.ofCase_inj.mp outer).2
      simpa [UInt64.toNat_inj] using holds.unique also
    | _ => simp [JsonValue.ofCase_inj] at outer
  | _, _, _, _, .container holds nested, second => by
    generalize outer : JsonValue.ofCase _ _ = value at second
    cases second with
    | container also again =>
      obtain rfl := (JsonValue.ofCase_inj.mp outer).2
      cases holds.unique also
      rw [nested.unique again]
    | _ => simp [JsonValue.ofCase_inj] at outer
  | _, _, _, _, .union holds nested, second => by
    generalize outer : JsonValue.ofCase _ _ = value at second
    cases second with
    | union also again =>
      obtain rfl := (JsonValue.ofCase_inj.mp outer).2
      cases holds.unique also
      rw [nested.unique again]
    | _ => simp [JsonValue.ofCase_inj] at outer

/-- Values spell one list of fields at most. -/
theorem Schema.SpelledFields.unique : {levels : Nat} → {parts : List JsonValue} →
    {fields others : List Field} → Schema.SpelledFields levels parts fields →
      Schema.SpelledFields levels parts others → fields = others
  | _, _, _, _, .nil, .nil => rfl
  | _, _, _, _, .cons holds nested later, .cons also again rest => by
    cases holds.unique also
    rw [nested.unique again, later.unique rest]

/-- Values spell one list of variants at most. -/
theorem Schema.SpelledVariants.unique : {levels : Nat} → {parts : List JsonValue} →
    {variants others : List (Option Schema)} → Schema.SpelledVariants levels parts variants →
      Schema.SpelledVariants levels parts others → variants = others
  -- What spells a schema is not null, so no place is read in two ways.
  | _, _, _, _, .nil, .nil => rfl
  | _, _, _, _, .none later, .none rest => by rw [later.unique rest]
  | _, _, _, _, .none _, .some again _ => absurd rfl again.ne_null
  | _, _, _, _, .some nested _, .none _ => absurd rfl nested.ne_null
  | _, _, _, _, .some nested later, .some again rest => by
    rw [nested.unique again, later.unique rest]

end

namespace Schema

/-- A text is well formed, and what it spells is a schema, whether or not the rules are kept. -/
def SpelledText (text : String) (schema : Schema) : Prop :=
  (JsonValue.ofText text).isWhole = true ∧
    Spelled JsonValue.maxLevels (JsonValue.ofText text).value schema

/-- A text is read as a schema exactly if it spells that and the schema is accepted. -/
theorem ofText_eq_ok {text : String} {schema : Schema} :
    ofText text = .ok schema ↔ SpelledText text schema ∧ schema.Accepted := by
  -- The value is read and checked first, and text that is left over is refused only then.
  simp only [ofText, readText, bind_eq_ok, ofJson_eq_ok_iff]
  constructor
  · intro ⟨_, ⟨spelled, accepted⟩, closed⟩
    split at closed
    · rename_i whole
      cases closed
      exact ⟨⟨whole, spelled⟩, accepted⟩
    · cases closed
  · intro ⟨⟨whole, spelled⟩, accepted⟩
    exact ⟨schema, ⟨spelled, accepted⟩, if_pos whole⟩

/-- A text exceeds a limit just where the value does that it spells. -/
theorem ofText_eq_limit {text : String} {exceeded : LimitError} :
    ofText text = .error (.limit exceeded) ↔
      ofJson JsonValue.maxLevels (JsonValue.ofText text).value = .error (.limit exceeded) := by
  -- Text that is left over is malformed, which exceeds no limit.
  simp only [ofText, readText, bind_eq_error]
  constructor
  · rintro (read | ⟨_, _, closed⟩)
    · exact read
    · split at closed <;> cases closed
  · exact .inl

/-- The text of a schema spells it, if any text does. -/
theorem SpelledText.toText {text : String} {schema : Schema} (spelled : SpelledText text schema) :
    SpelledText schema.toText schema := by
  have again := JsonValue.ofText_toText schema.isWhole_toJson
  rw [SpelledText, Schema.toText, again]
  exact ⟨rfl, spelled.2.toJson⟩

/-- A text that is not read as a schema is malformed, unless an offset leaves a word inside it. -/
theorem ofText_eq_error {text : String} {fault : TextError} (failed : ofText text = .error fault) :
    fault = .malformed ∨ ∃ levels part schema, part.Inside (JsonValue.ofText text).value ∧
      Spelled levels part schema ∧ schema.MembersAccepted ∧ schema.OffsetOverflows := by
  cases fault with
  | malformed => exact .inl rfl
  | limit exceeded => exact .inr (Spelled.exists_of_ofJson_eq_limit (ofText_eq_limit.mp failed))

end Schema

/--
Only schemas in which every kind keeps its rules are read from texts: those that a text spells, each
with the layout that is made from its kind, and each is read again from what is written. A text is
refused as a whole if some kind in it breaks a rule. It is malformed then, unless a kind spelled in
it adds an offset that leaves a word, and where all members are accepted just that exceeds a limit.
-/
theorem Schema.ofText_validates (text : String) :
    (∀ schema : Schema, Schema.ofText text = .ok schema ↔ Schema.SpelledText text schema ∧
      ∀ inner : Schema, inner.OccursIn schema → inner.KeepsRules) ∧
    (∀ schema : Schema, Schema.ofText text = .ok schema →
      Schema.ofText schema.toText = .ok schema ∧
        ∀ inner : Schema, inner.OccursIn schema → inner.accept = .ok inner ∧
          ∀ layout, inner.Carries layout ↔ layout = inner.layout) ∧
    (∀ schema inner : Schema, Schema.SpelledText text schema → inner.OccursIn schema →
      ¬ inner.KeepsRules → ∃ fault, Schema.ofText text = .error fault) ∧
    (∀ fault, Schema.ofText text = .error fault → fault = .malformed ∨
      ∃ (levels : Nat) (part : JsonValue) (kind : Schema),
        part.Inside (JsonValue.ofText text).value ∧ Schema.Spelled levels part kind ∧
          kind.MembersAccepted ∧ kind.OffsetOverflows) ∧
    (∀ schema : Schema, Schema.SpelledText text schema → schema.MembersAccepted →
      ((∃ exceeded, Schema.ofText text = .error (.limit exceeded)) ↔
        schema.HasShape ∧ schema.depth ≤ maxChunkDepth ∧ schema.OffsetOverflows)) := by
  refine ⟨fun schema => ?_, fun schema read => ?_, fun schema inner spelled occurs broken => ?_,
    fun fault => Schema.ofText_eq_error, fun schema spelled members => ?_⟩
  · rw [Schema.ofText_eq_ok, Schema.accepted_iff_occursIn]
  · obtain ⟨spelled, accepted⟩ := Schema.ofText_eq_ok.mp read
    refine ⟨Schema.ofText_eq_ok.mpr ⟨spelled.toText, accepted⟩, fun inner occurs => ?_⟩
    have kept := (accepted.of_occursIn occurs).check
    exact ⟨by rw [Schema.accept, kept]; rfl, inner.carries_iff⟩
  · cases read : Schema.ofText text with
    | error fault => exact ⟨fault, rfl⟩
    | ok other =>
      -- The text spells no other schema than the one with the broken rule.
      obtain ⟨also, accepted⟩ := Schema.ofText_eq_ok.mp read
      obtain rfl := spelled.2.unique also.2
      exact absurd (Schema.accepted_iff_occursIn.mp accepted inner occurs) broken
  · simp only [Schema.ofText_eq_limit, spelled.2.ofJson_eq_limit_iff members]

/-- Two bitlists, whose number stands before their schema, are read unless they hold no bits. -/
theorem Schema.ofText_validates_bitlists :
    let text (bits : Nat) : String := JsonValue.toText (.ofCase "Vector" (.ofRecord
      [("length", .natural 2), ("element", .ofCase "Bitlist" (.array [.natural bits]))]))
    Schema.ofText (text 9) = .ok (.vector (.bitlist 9) 2) ∧
      Schema.ofText (Schema.vector (.bitlist 9) 2).toText = .ok (.vector (.bitlist 9) 2) ∧
        ∃ fault, Schema.ofText (text 0) = .error fault := by
  intro text
  have read : Schema.ofText (text 9) = .ok (.vector (.bitlist 9) 2) := by
    rw [Schema.ofText, Schema.readText, JsonValue.ofText_toText rfl]
    rfl
  -- The vector is an object with its number first, and the bitlist an array of its only part.
  have spelled : Schema.SpelledText (text 0) (.vector (.bitlist 0) 2) := by
    rw [Schema.SpelledText, JsonValue.ofText_toText rfl]
    refine ⟨rfl, .vector ⟨?_, rfl⟩ (.bitlist ⟨rfl, rfl⟩)⟩
    simp [JsonValue.Orderly]
  have empty : ¬ (Schema.bitlist 0).KeepsRules := fun keeps => Nat.lt_irrefl 0 keeps.shape
  exact ⟨read, ((Schema.ofText_validates (text 9)).2.1 _ read).1,
    (Schema.ofText_validates (text 0)).2.2.1 _ _ spelled (.vector .whole) empty⟩

/-- A union of bytes that fill a word breaks a rule with its selector, which is not checked. -/
theorem Schema.unchecked_selector_text :
    let schema : Schema := .union [some (.vector (.scalar .uint8) 0xffffffffffffffff)]
    Schema.SpelledText schema.toText schema ∧ ¬ schema.KeepsRules ∧
      Schema.ofText schema.toText = .error (.limit (.sizeTooLarge (2 ^ 64 + 3))) := by
  intro schema
  have whole := JsonValue.ofText_toText schema.isWhole_toJson
  have spelled : Schema.SpelledText schema.toText schema := by
    rw [Schema.SpelledText, Schema.toText, whole]
    exact ⟨rfl, .union ⟨by simp [JsonValue.Orderly], rfl⟩ (.some (.vector
      ⟨by simp [JsonValue.Orderly], rfl⟩ (.scalar (.inl rfl))) .nil)⟩
  -- Reading the schema back adds the selector to the least size of the bytes.
  refine ⟨spelled, fun keeps => absurd keeps.size (by decide), ?_⟩
  rw [Schema.ofText, Schema.readText, Schema.toText, whole]
  rfl

end Ssz
