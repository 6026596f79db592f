import Ssz.Json.Schema
import Ssz.Proofs.Json.Record
import Ssz.Proofs.Json.Text
import Ssz.Proofs.Schema.Layout
import Ssz.Proofs.Schema.Nested

/-! Schemas in JSON: what spells one is read exactly if every kind in it keeps its rules. -/

namespace Ssz

/-- A value names a scalar type, as a string or as the case of a null. -/
def Scalar.NamedBy (type : Scalar) (levels : Nat) (value : JsonValue) : Prop :=
  value = .string (some type.tag) ∨ 0 < levels ∧ value = .ofCase type.tag .null

mutual

/-- A value spells a schema within a number of levels, whether or not the rules are kept. -/
inductive Schema.Spelled : (levels : Nat) → JsonValue → Schema → Prop where
  | scalar {levels : Nat} {content : JsonValue} {type : Scalar}
    (named : type.NamedBy levels content) :
    Spelled (levels + 1) (.ofCase "Basic" content) (.scalar type)
  | vector {levels : Nat} {content part : JsonValue} {element : Schema} {length : UInt64}
    (holds : content.Holds ["element", "length"] [part, .natural length.toNat])
    (nested : Spelled levels part element) :
    Spelled (levels + 2) (.ofCase "Vector" content) (.vector element length)
  | list {levels : Nat} {content part : JsonValue} {element : Schema} {maxLength : UInt64}
    (holds : content.Holds ["element", "max_length"] [part, .natural maxLength.toNat])
    (nested : Spelled levels part element) :
    Spelled (levels + 2) (.ofCase "List" content) (.list element maxLength)
  | bitvector {levels : Nat} {content : JsonValue} {length : UInt64}
    (holds : content.Holds ["length"] [.natural length.toNat]) :
    Spelled (levels + 2) (.ofCase "Bitvector" content) (.bitvector length)
  | bitlist {levels : Nat} {content : JsonValue} {maxLength : UInt64}
    (holds : content.Holds ["max_length"] [.natural maxLength.toNat]) :
    Spelled (levels + 2) (.ofCase "Bitlist" content) (.bitlist maxLength)
  | container {levels : Nat} {content : JsonValue} {parts : List JsonValue} {fields : List Field}
    (holds : content.Holds ["fields"] [.array parts])
    (nested : SpelledFields levels parts fields) :
    Spelled (levels + 4) (.ofCase "Container" content) (.container fields)
  | union {levels : Nat} {content : JsonValue} {parts : List JsonValue}
    {variants : List (Option Schema)} (holds : content.Holds ["variants"] [.array parts])
    (nested : SpelledVariants levels parts variants) :
    Spelled (levels + 3) (.ofCase "Union" content) (.union variants)

/-- Values spell fields, each by its name and its schema. -/
inductive Schema.SpelledFields : (levels : Nat) → List JsonValue → List Field → Prop where
  | nil {levels : Nat} : SpelledFields levels [] []
  | cons {levels : Nat} {part content : JsonValue} {parts : List JsonValue} {name : String}
    {schema : Schema} {fields : List Field}
    (holds : part.Holds ["name", "schema"] [.string (some name), content])
    (nested : Spelled levels content schema) (later : SpelledFields levels parts fields) :
    SpelledFields levels (part :: parts) (⟨name, schema⟩ :: fields)

/-- Values spell variants, null an absent one. -/
inductive Schema.SpelledVariants : (levels : Nat) → List JsonValue → List (Option Schema) → Prop
    where
  | nil {levels : Nat} : SpelledVariants levels [] []
  | none {levels : Nat} {parts : List JsonValue} {variants : List (Option Schema)}
    (later : SpelledVariants levels parts variants) :
    SpelledVariants levels (.null :: parts) (none :: variants)
  | some {levels : Nat} {part : JsonValue} {parts : List JsonValue} {schema : Schema}
    {variants : List (Option Schema)} (nested : Spelled levels part schema)
    (later : SpelledVariants levels parts variants) :
    SpelledVariants levels (part :: parts) (some schema :: variants)

end

/-- What is of the form asked for is passed on. -/
theorem formed_eq_ok {α : Type} {read : Option α} {result : α} :
    formed read = .ok result ↔ read = some result := by
  cases read <;> simp [formed]

/-- What is not of the form asked for exceeds no limit. -/
theorem formed_ne_limit {α : Type} {read : Option α} {exceeded : LimitError} :
    formed read ≠ .error (.limit exceeded) := by
  cases read <;> simp [formed]

/-- A word is read from the number that it is. -/
theorem formed_word_eq_ok {value : JsonValue} {word : UInt64} :
    formed (wordOfJson? value) = .ok word ↔ value = .natural word.toNat := by
  -- Only numbers that fit into a word are words, and each word is one number.
  rw [formed_eq_ok]
  cases value with
  | natural number =>
    simp only [wordOfJson?, JsonValue.below?, JsonValue.natural.injEq, Option.map_eq_some_iff,
      Option.ite_none_right_eq_some, Option.some.injEq]
    constructor
    · rintro ⟨_, ⟨small, rfl⟩, rfl⟩
      exact (UInt64.toNat_ofNat_of_lt small).symm
    · rintro rfl
      exact ⟨_, ⟨word.toNat_lt_size, rfl⟩, UInt64.ofNat_toNat⟩
  | _ => exact iff_of_false nofun nofun

/-- A scalar type is found by its tag, which no other one has. -/
theorem Scalar.find?_tag {name : String} {type : Scalar} :
    (Scalar.all.find? fun type => type.tag = name) = some type ↔ name = type.tag := by
  -- Whatever is found has the tag, and all tags are found again since no two are the same.
  constructor
  · intro found
    have tagged := List.find?_some found
    exact (of_decide_eq_true tagged).symm
  · rintro rfl
    cases type <;> rfl

/-- A case is told by the only member of an object, which lies within some level. -/
theorem JsonValue.case?_eq_some {levels inner : Nat} {value content : JsonValue} {name : String} :
    value.case? levels = some (inner, name, content) ↔
      levels = inner + 1 ∧ value = .ofCase name content := by
  unfold JsonValue.case? JsonValue.ofCase
  split <;> simp_all

/-- A scalar type is read from what names it. -/
theorem Scalar.ofJson?_eq_some {levels : Nat} {value : JsonValue} {type : Scalar} :
    Scalar.ofJson? levels value = some type ↔ type.NamedBy levels value := by
  -- A scalar is spelled by its tag alone, or by an object whose one member has the tag and no
  -- content.
  unfold Scalar.ofJson? Scalar.NamedBy
  split
  · rw [find?_tag]
    simp [JsonValue.ofCase]
  · rename_i other
    split
    · rename_i inner name known
      obtain ⟨rfl, rfl⟩ := JsonValue.case?_eq_some.mp known
      rw [find?_tag]
      simp [JsonValue.ofCase]
    · rename_i missing
      refine iff_of_false nofun fun spelled => ?_
      rcases spelled with rfl | ⟨some, rfl⟩
      · exact other _ rfl
      · obtain ⟨inner, rfl⟩ := Nat.exists_eq_add_one.mpr some
        exact missing _ _ rfl

namespace Schema

/-- A schema passes its own check just where it is passed on. -/
theorem accepted_eq_ok {schema result : Schema} :
    schema.accepted = .ok result ↔ schema = result ∧ schema.check = .ok () := by
  cases own : schema.check with
  | ok => simp [accepted, accept, own]
  | error fault => cases fault <;> simp [accepted, accept, own]

/-- A limit is exceeded by a schema just where its check says so. -/
theorem accepted_eq_limit {schema : Schema} {exceeded : LimitError} :
    schema.accepted = .error (.limit exceeded) ↔ schema.check = .error (.limit exceeded) := by
  cases own : schema.check with
  | ok => simp [accepted, accept, own]
  | error fault => cases fault <;> simp [accepted, accept, own]

section Parts

variable {readSchema : JsonValue → Except TextError Schema} {value : JsonValue} {schema : Schema}
  {exceeded : LimitError}

/-- A sequence is read exactly if the value holds its element schema and its number of elements. -/
theorem sequenceOfJson_eq_ok (make : Schema → UInt64 → Schema) {countName : String}
    (different : "element" ≠ countName) :
    sequenceOfJson make countName readSchema value = .ok schema ↔ ∃ part element,
      ∃ count : UInt64, value.Holds ["element", countName] [part, .natural count.toNat] ∧
        readSchema part = .ok element ∧ make element count = schema := by
  -- The two parts of the record have readers of their own: a schema and a word.
  simp only [sequenceOfJson, bind_eq_ok]
  constructor
  · intro ⟨results, read, made⟩
    split at made
    · obtain ⟨part, other, holds, own, counted⟩ := (JsonValue.readRecord_pair different).mp read
      obtain ⟨_, own, same⟩ := map_eq_ok.mp own
      cases same
      obtain ⟨_, counted, same⟩ := map_eq_ok.mp counted
      cases same
      obtain rfl := formed_word_eq_ok.mp counted
      exact ⟨part, _, _, holds, own, Except.ok.inj made⟩
    · cases made
  · intro ⟨part, element, count, holds, own, made⟩
    refine ⟨_, (JsonValue.readRecord_pair different).mpr ⟨part, _, holds,
      map_eq_ok.mpr ⟨element, own, rfl⟩, map_eq_ok.mpr ⟨count, formed_word_eq_ok.mpr rfl, rfl⟩⟩, ?_⟩
    exact congrArg Except.ok made

/-- A schema of bits is read exactly if the value holds their number. -/
theorem bitsOfJson_eq_ok (make : UInt64 → Schema) {countName : String} :
    bitsOfJson make countName value = .ok schema ↔ ∃ count : UInt64,
      value.Holds [countName] [.natural count.toNat] ∧ make count = schema := by
  -- The only part is a number, which is the word that it spells.
  simp only [bitsOfJson, bind_eq_ok]
  constructor
  · intro ⟨results, read, made⟩
    split at made
    · obtain ⟨part, holds, counted⟩ := JsonValue.readRecord_single.mp read
      obtain rfl := formed_word_eq_ok.mp counted
      exact ⟨_, holds, Except.ok.inj made⟩
    · cases made
  · intro ⟨count, holds, made⟩
    exact ⟨_, JsonValue.readRecord_single.mpr ⟨_, holds, formed_word_eq_ok.mpr rfl⟩,
      congrArg Except.ok made⟩

/-- A field is read exactly if the value holds its name and its schema. -/
theorem fieldOfJson_eq_ok {field : Field} : fieldOfJson readSchema value = .ok field ↔
    ∃ part, value.Holds ["name", "schema"] [.string (some field.name), part] ∧
      readSchema part = .ok field.schema := by
  simp only [fieldOfJson, bind_eq_ok]
  constructor
  · intro ⟨results, read, made⟩
    split at made
    · obtain ⟨part, other, holds, own, nested⟩ := (JsonValue.readRecord_pair (by decide)).mp read
      obtain ⟨_, nested, same⟩ := map_eq_ok.mp nested
      cases made
      -- In the first place only a string that is text is a name.
      split at own
      · cases own
        cases same
        exact ⟨other, holds, nested⟩
      · cases own
      · rename_i later _
        exact (later rfl).elim
    · cases made
  · obtain ⟨name, schema⟩ := field
    intro ⟨part, holds, nested⟩
    exact ⟨_, (JsonValue.readRecord_pair (by decide)).mpr
      ⟨_, part, holds, rfl, map_eq_ok.mpr ⟨_, nested, rfl⟩⟩, rfl⟩

/-- A variant is read from what spells it, and an absent one from null. -/
theorem variantOfJson_eq_ok {variant : Option Schema} :
    variantOfJson readSchema value = .ok variant ↔ value = .null ∧ variant = none ∨
      value ≠ .null ∧ ∃ schema, readSchema value = .ok schema ∧ some schema = variant := by
  cases value with
  | null => simp [variantOfJson, eq_comm]
  | _ => simp [variantOfJson, map_eq_ok]

/-- A list of parts is read exactly if the value holds an array of which each element is. -/
theorem partsOfJson_eq_ok {α : Type} (make : List α → Schema) {name : String}
    {read : JsonValue → Except TextError α} :
    partsOfJson make name read value = .ok schema ↔ ∃ parts results,
      value.Holds [name] [.array parts] ∧
        List.Forall₂ (fun part result => read part = .ok result) parts results ∧
          make results = schema := by
  -- The only part is an array, whose elements are read from left to right.
  simp only [partsOfJson, bind_eq_ok, ← mapM_eq_ok]
  constructor
  · intro ⟨results, whole, made⟩
    split at made
    · obtain ⟨part, holds, each⟩ := JsonValue.readRecord_single.mp whole
      cases part with
      | array parts => exact ⟨parts, _, holds, each, Except.ok.inj made⟩
      | _ => cases each
    · cases made
  · intro ⟨parts, results, holds, each, made⟩
    exact ⟨_, JsonValue.readRecord_single.mpr ⟨_, holds, each⟩, congrArg Except.ok made⟩

/-- What is read of some part inside a value as a schema exceeds a limit. -/
def ExceedsInside (readSchema : JsonValue → Except TextError Schema) (exceeded : LimitError)
    (value : JsonValue) : Prop :=
  ∃ part, part.Inside value ∧ readSchema part = .error (.limit exceeded)

/-- A limit that is exceeded inside a part is exceeded inside the whole. -/
theorem ExceedsInside.outside {part : JsonValue} (exceeds : ExceedsInside readSchema exceeded part)
    (inside : part.Inside value) : ExceedsInside readSchema exceeded value := by
  obtain ⟨inner, deep, failed⟩ := exceeds
  exact ⟨inner, deep.trans inside, failed⟩

/-- A limit that is exceeded inside the first content of an object is exceeded inside the object. -/
theorem ExceedsInside.of_content {content : JsonValue} (name : Option String)
    (rest : List (Option String × JsonValue))
    (exceeds : ExceedsInside readSchema exceeded content) :
    ExceedsInside readSchema exceeded (.object ((name, content) :: rest)) :=
  exceeds.outside (.member .whole List.mem_cons_self)

/-- A record exceeds a limit only inside, if its parts do so. -/
theorem ExceedsInside.of_readRecord {α : Type} {names : List String}
    {read : (place : Nat) → JsonValue → Except TextError α}
    (each : ∀ (place : Nat) (part : JsonValue), read place part = .error (.limit exceeded) →
      ExceedsInside readSchema exceeded part)
    (failed : value.readRecord names read = .error (.limit exceeded)) :
    ExceedsInside readSchema exceeded value := by
  obtain ⟨place, part, inside, failed⟩ := JsonValue.exists_of_readRecord_eq_limit failed
  exact (each place part failed).outside inside

/-- A sequence exceeds a limit only inside, as its element schema does. -/
theorem ExceedsInside.of_sequenceOfJson {make : Schema → UInt64 → Schema} {countName : String}
    (failed : sequenceOfJson make countName readSchema value = .error (.limit exceeded)) :
    ExceedsInside readSchema exceeded value := by
  -- The number of elements exceeds no limit, so the element schema does.
  rcases bind_eq_error.mp failed with read | ⟨_, _, made⟩
  · refine .of_readRecord (fun place part failed => ?_) read
    split at failed
    · exact ⟨part, .whole, map_eq_error.mp failed⟩
    · exact absurd (map_eq_error.mp failed) formed_ne_limit
  · split at made <;> cases made

/-- A schema of bits exceeds no limit while its number of bits is read. -/
theorem bitsOfJson_ne_limit {make : UInt64 → Schema} {countName : String} :
    bitsOfJson make countName value ≠ .error (.limit exceeded) := by
  intro failed
  -- A number has no parts inside, and not being one is a matter of form.
  rcases bind_eq_error.mp failed with read | ⟨_, _, made⟩
  · obtain ⟨_, _, _, counted⟩ := JsonValue.exists_of_readRecord_eq_limit read
    exact formed_ne_limit counted
  · split at made <;> cases made

/-- A field exceeds a limit only inside, as its schema does. -/
theorem ExceedsInside.of_fieldOfJson
    (failed : fieldOfJson readSchema value = .error (.limit exceeded)) :
    ExceedsInside readSchema exceeded value := by
  -- The name exceeds no limit, so the schema does.
  rcases bind_eq_error.mp failed with read | ⟨_, _, made⟩
  · refine .of_readRecord (fun place part failed => ?_) read
    split at failed
    · cases failed
    · cases failed
    · exact ⟨_, .whole, map_eq_error.mp failed⟩
  · split at made <;> cases made

/-- A variant exceeds a limit only as its schema does. -/
theorem ExceedsInside.of_variantOfJson
    (failed : variantOfJson readSchema value = .error (.limit exceeded)) :
    ExceedsInside readSchema exceeded value := by
  unfold variantOfJson at failed
  split at failed
  · cases failed
  · exact ⟨_, .whole, map_eq_error.mp failed⟩

/-- A list of parts exceeds a limit only inside, if each of them does so. -/
theorem ExceedsInside.of_partsOfJson {α : Type} {make : List α → Schema} {name : String}
    {read : JsonValue → Except TextError α}
    (each : ∀ part : JsonValue, read part = .error (.limit exceeded) →
      ExceedsInside readSchema exceeded part)
    (failed : partsOfJson make name read value = .error (.limit exceeded)) :
    ExceedsInside readSchema exceeded value := by
  -- The first element that fails lies inside the array, and what exceeds inside it does so in the
  -- whole.
  rcases bind_eq_error.mp failed with whole | ⟨_, _, made⟩
  · refine .of_readRecord (fun place part failed => ?_) whole
    cases part with
    | array elements =>
      obtain ⟨element, inside, failed⟩ := exists_of_mapM_eq_error failed
      exact (each element failed).outside (.element .whole inside)
    | _ => cases failed
  · split at made <;> cases made

end Parts

/-- What is read of the first member of an object counts if there is no other one. -/
theorem closed_eq_ok {read : Except TextError Schema} {rest : List (Option String × JsonValue)}
    {schema : Schema} :
    (do
      let schema ← read
      if rest.isEmpty then return schema else throw TextError.malformed) = .ok schema ↔
        read = .ok schema ∧ rest = [] := by
  cases rest <;> simp [bind_eq_ok]

/-- Parts that are read as fields spell them, if what is read as a schema spells it. -/
theorem SpelledFields.of_each {levels : Nat} {parts : List JsonValue} {fields : List Field}
    (sound : ∀ {value : JsonValue} {schema : Schema}, ofJson levels value = .ok schema →
      Spelled levels value schema ∧ schema.Accepted)
    (each : List.Forall₂ (fun part field => fieldOfJson (ofJson levels) part = .ok field)
      parts fields) :
    SpelledFields levels parts fields ∧ AcceptedFields fields := by
  -- Each part holds a name and a part of its own, which spells the schema of the field.
  induction each with
  | nil => exact ⟨.nil, trivial⟩
  | @cons _ field _ _ own _ ih =>
    obtain ⟨name, schema⟩ := field
    obtain ⟨part, holds, nested⟩ := fieldOfJson_eq_ok.mp own
    obtain ⟨nested, accepted⟩ := sound nested
    exact ⟨.cons holds nested ih.1, accepted, ih.2⟩

/-- Parts that are read as variants spell them, if what is read as a schema spells it. -/
theorem SpelledVariants.of_each {levels : Nat} {parts : List JsonValue}
    {variants : List (Option Schema)}
    (sound : ∀ {value : JsonValue} {schema : Schema}, ofJson levels value = .ok schema →
      Spelled levels value schema ∧ schema.Accepted)
    (each : List.Forall₂ (fun part variant => variantOfJson (ofJson levels) part = .ok variant)
      parts variants) :
    SpelledVariants levels parts variants ∧ AcceptedVariants variants := by
  -- Null stands for the empty variant, and nothing that spells a schema is null.
  induction each with
  | nil => exact ⟨.nil, trivial⟩
  | cons own _ ih =>
    rcases variantOfJson_eq_ok.mp own with ⟨rfl, rfl⟩ | ⟨_, schema, nested, rfl⟩
    · exact ⟨.none ih.1, ih.2⟩
    · obtain ⟨nested, accepted⟩ := sound nested
      exact ⟨.some nested ih.1, accepted, ih.2⟩

/-- Null spells no schema. -/
theorem Spelled.ne_null {levels : Nat} {value : JsonValue} {schema : Schema}
    (spelled : Spelled levels value schema) : value ≠ .null := by
  cases spelled <;> exact nofun

/-- A value is read as a schema exactly if that is its shape and passes its own check. -/
theorem ofJson_eq_ok {levels : Nat} {value : JsonValue} {schema : Schema} :
    ofJson levels value = .ok schema ↔
      shapeOfJson levels value = .ok schema ∧ schema.check = .ok () := by
  -- The shape is read first, and its check changes nothing in it.
  simp only [ofJson, bind_eq_ok, accepted_eq_ok]
  constructor
  · rintro ⟨_, shape, rfl, checked⟩
    exact ⟨shape, checked⟩
  · intro ⟨shape, checked⟩
    exact ⟨schema, shape, rfl, checked⟩

/-- What has the shape of a schema spells it, and what is nested in the schema is accepted. -/
theorem Spelled.of_shapeOfJson {levels : Nat} {value : JsonValue} {schema : Schema}
    (read : shapeOfJson levels value = .ok schema) :
    Spelled levels value schema ∧ schema.MembersAccepted := by
  induction levels using Nat.strongRecOn generalizing value schema with
  | ind levels ih =>
    have sound (inner : Nat) (fewer : inner < levels) {part : JsonValue} {nested : Schema}
        (read : ofJson inner part = .ok nested) : Spelled inner part nested ∧ nested.Accepted := by
      obtain ⟨shape, checked⟩ := ofJson_eq_ok.mp read
      obtain ⟨spelled, members⟩ := ih inner fewer shape
      exact ⟨spelled, accepted_iff.mpr ⟨members, checked⟩⟩
    -- The outermost case tells the kind, and inside it fewer levels are left.
    unfold shapeOfJson at read
    split at read
    · dsimp only at read
      split at read <;> obtain ⟨made, rfl⟩ := closed_eq_ok.mp read
      · obtain ⟨type, named, rfl⟩ := map_eq_ok.mp made
        exact ⟨.scalar (Scalar.ofJson?_eq_some.mp (formed_eq_ok.mp named)), trivial⟩
      · obtain ⟨part, element, length, holds, nested, rfl⟩ :=
          (sequenceOfJson_eq_ok _ (by decide)).mp made
        obtain ⟨nested, accepted⟩ := sound _ (by omega) nested
        exact ⟨.vector holds nested, accepted⟩
      · obtain ⟨part, element, length, holds, nested, rfl⟩ :=
          (sequenceOfJson_eq_ok _ (by decide)).mp made
        obtain ⟨nested, accepted⟩ := sound _ (by omega) nested
        exact ⟨.list holds nested, accepted⟩
      · obtain ⟨length, holds, rfl⟩ := (bitsOfJson_eq_ok _).mp made
        exact ⟨.bitvector holds, trivial⟩
      · obtain ⟨length, holds, rfl⟩ := (bitsOfJson_eq_ok _).mp made
        exact ⟨.bitlist holds, trivial⟩
      · obtain ⟨parts, fields, holds, each, rfl⟩ := (partsOfJson_eq_ok _).mp made
        obtain ⟨nested, accepted⟩ := SpelledFields.of_each (sound _ (by omega)) each
        exact ⟨.container holds nested, accepted⟩
      · obtain ⟨parts, variants, holds, each, rfl⟩ := (partsOfJson_eq_ok _).mp made
        obtain ⟨nested, accepted⟩ := SpelledVariants.of_each (sound _ (by omega)) each
        exact ⟨.union holds nested, accepted⟩
      · cases made
    · cases read

/-- What is read as a schema spells it, and the schema is accepted. -/
theorem Spelled.of_ofJson {levels : Nat} {value : JsonValue} {schema : Schema}
    (read : ofJson levels value = .ok schema) : Spelled levels value schema ∧ schema.Accepted := by
  obtain ⟨shape, checked⟩ := ofJson_eq_ok.mp read
  obtain ⟨spelled, members⟩ := of_shapeOfJson shape
  exact ⟨spelled, accepted_iff.mpr ⟨members, checked⟩⟩

/-- An object whose first member exceeds no limit exceeds none. -/
theorem closed_eq_limit {read : Except TextError Schema} {rest : List (Option String × JsonValue)}
    {exceeded : LimitError} :
    (do
      let schema ← read
      if rest.isEmpty then return schema else throw TextError.malformed) =
        .error (.limit exceeded) ↔ read = .error (.limit exceeded) := by
  cases rest <;> simp [bind_eq_error]

/-- What exceeds a limit has a part that spells a schema in which an offset leaves a word. -/
theorem Spelled.exists_of_ofJson_eq_limit {levels : Nat} {value : JsonValue}
    {exceeded : LimitError} (failed : ofJson levels value = .error (.limit exceeded)) :
    ∃ inner part schema, part.Inside value ∧ Spelled inner part schema ∧
      schema.MembersAccepted ∧ schema.OffsetOverflows := by
  induction levels using Nat.strongRecOn generalizing value with
  | ind levels ih =>
    rcases bind_eq_error.mp failed with outer | ⟨schema, shape, refused⟩
    · -- The fault comes from inside, and there it is one of a value with fewer levels.
      have deeper (inner : Nat) (fewer : inner < levels)
          (exceeds : ExceedsInside (ofJson inner) exceeded value) :
          ∃ inner part schema, part.Inside value ∧ Spelled inner part schema ∧
            schema.MembersAccepted ∧ schema.OffsetOverflows := by
        obtain ⟨part, inside, failed⟩ := exceeds
        obtain ⟨least, deepest, schema, deep, found⟩ := ih inner fewer failed
        exact ⟨least, deepest, schema, deep.trans inside, found⟩
      unfold shapeOfJson at outer
      split at outer
      · -- Closing the object only adds that it is malformed.
        dsimp only at outer
        split at outer <;> have made := closed_eq_limit.mp outer
        · exact absurd (map_eq_error.mp made) formed_ne_limit
        · exact deeper _ (by omega) (.of_content _ _ (.of_sequenceOfJson made))
        · exact deeper _ (by omega) (.of_content _ _ (.of_sequenceOfJson made))
        · exact absurd made bitsOfJson_ne_limit
        · exact absurd made bitsOfJson_ne_limit
        · exact deeper _ (by omega)
            (.of_content _ _ (.of_partsOfJson (fun _ => .of_fieldOfJson) made))
        · exact deeper _ (by omega)
            (.of_content _ _ (.of_partsOfJson (fun _ => .of_variantOfJson) made))
        · cases made
      · cases outer
    · -- The fault is one of the check, and all that is nested in the schema has passed its own.
      obtain ⟨spelled, members⟩ := of_shapeOfJson shape
      have limited := (check_eq_limit_iff members).mp ⟨exceeded, accepted_eq_limit.mp refused⟩
      exact ⟨levels, value, schema, .whole, spelled, members, limited.2.2⟩

/-- A value is read as an accepted schema, if its shape is read where the members are accepted. -/
theorem ofJson_of_shape {levels : Nat} {value : JsonValue} {schema : Schema}
    (shape : schema.MembersAccepted → shapeOfJson levels value = .ok schema)
    (accepted : schema.Accepted) : ofJson levels value = .ok schema :=
  ofJson_eq_ok.mpr ⟨shape (accepted_iff.mp accepted).1, accepted.check⟩

end Schema

mutual

/-- What spells a schema has its shape, if what is nested in the schema is accepted. -/
theorem Schema.Spelled.shapeOfJson : {levels : Nat} → {value : JsonValue} → {schema : Schema} →
    Schema.Spelled levels value schema → schema.MembersAccepted →
      Schema.shapeOfJson levels value = .ok schema
  -- The recursion follows how the schema is spelled, with one reader for each kind.
  | _, _, _, .scalar named, _ => by
    have known := formed_eq_ok.mpr (Scalar.ofJson?_eq_some.mpr named)
    exact closed_eq_ok.mpr ⟨map_eq_ok.mpr ⟨_, known, rfl⟩, rfl⟩
  | _, _, _, .vector holds nested, members => by
    have element := ofJson_of_shape nested.shapeOfJson members
    exact closed_eq_ok.mpr
      ⟨(sequenceOfJson_eq_ok .vector (by decide)).mpr ⟨_, _, _, holds, element, rfl⟩, rfl⟩
  | _, _, _, .list holds nested, members => by
    have element := ofJson_of_shape nested.shapeOfJson members
    exact closed_eq_ok.mpr
      ⟨(sequenceOfJson_eq_ok .list (by decide)).mpr ⟨_, _, _, holds, element, rfl⟩, rfl⟩
  | _, _, _, .bitvector holds, _ =>
    closed_eq_ok.mpr ⟨(bitsOfJson_eq_ok .bitvector).mpr ⟨_, holds, rfl⟩, rfl⟩
  | _, _, _, .bitlist holds, _ =>
    closed_eq_ok.mpr ⟨(bitsOfJson_eq_ok .bitlist).mpr ⟨_, holds, rfl⟩, rfl⟩
  | _, _, _, .container holds nested, members =>
    closed_eq_ok.mpr
      ⟨(partsOfJson_eq_ok .container).mpr ⟨_, _, holds, nested.each members, rfl⟩, rfl⟩
  | _, _, _, .union holds nested, members =>
    closed_eq_ok.mpr
      ⟨(partsOfJson_eq_ok .union).mpr ⟨_, _, holds, nested.each members, rfl⟩, rfl⟩

/-- What spells fields with accepted schemas is read as those. -/
theorem Schema.SpelledFields.each : {levels : Nat} → {parts : List JsonValue} →
    {fields : List Field} → Schema.SpelledFields levels parts fields →
      Schema.AcceptedFields fields →
        List.Forall₂ (fun part field =>
          Schema.fieldOfJson (Schema.ofJson levels) part = .ok field) parts fields
  | _, _, _, .nil, _ => .nil
  | _, _, _, .cons holds nested later, accepted => by
    have schema := ofJson_of_shape nested.shapeOfJson accepted.1
    exact .cons (fieldOfJson_eq_ok.mpr ⟨_, holds, schema⟩) (later.each accepted.2)

/-- What spells variants with accepted schemas is read as those. -/
theorem Schema.SpelledVariants.each : {levels : Nat} → {parts : List JsonValue} →
    {variants : List (Option Schema)} → Schema.SpelledVariants levels parts variants →
      Schema.AcceptedVariants variants →
        List.Forall₂ (fun part variant =>
          Schema.variantOfJson (Schema.ofJson levels) part = .ok variant) parts variants
  -- A variant with a schema is not null, so it is not taken for the empty one.
  | _, _, _, .nil, _ => .nil
  | _, _, _, .none later, accepted => .cons rfl (later.each accepted)
  | _, _, _, .some nested later, accepted => by
    have schema := ofJson_of_shape nested.shapeOfJson accepted.1
    exact .cons (variantOfJson_eq_ok.mpr (.inr ⟨nested.ne_null, _, schema, rfl⟩))
      (later.each accepted.2)

end

namespace Schema

variable {levels : Nat} {value : JsonValue} {schema : Schema}

/-- A value is read as a schema exactly if it spells that and the schema is accepted. -/
theorem ofJson_eq_ok_iff :
    ofJson levels value = .ok schema ↔ Spelled levels value schema ∧ schema.Accepted :=
  ⟨Spelled.of_ofJson, fun ⟨spelled, accepted⟩ => ofJson_of_shape spelled.shapeOfJson accepted⟩

/--
What spells a schema of accepted members exceeds a limit just where an offset leaves a word, and
the parameters of its kind are what they may be.
-/
theorem Spelled.ofJson_eq_limit_iff (spelled : Spelled levels value schema)
    (members : schema.MembersAccepted) :
    (∃ exceeded, ofJson levels value = .error (.limit exceeded)) ↔
      schema.HasShape ∧ schema.depth ≤ maxChunkDepth ∧ schema.OffsetOverflows := by
  rw [← check_eq_limit_iff members]
  simp only [ofJson, spelled.shapeOfJson members, ok_bind, accepted_eq_limit]

end Schema

end Ssz
