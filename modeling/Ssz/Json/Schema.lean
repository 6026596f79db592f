import Ssz.Json.Basic
import Ssz.Schema.Build

/-! The JSON form of schemas, whose members are checked while they are read. -/

namespace Ssz

/-- The name of a scalar type in the JSON form. -/
def Scalar.tag : Scalar → String
  | boolean => "Boolean"
  | uint8 => "Uint8"
  | uint16 => "Uint16"
  | uint32 => "Uint32"
  | uint64 => "Uint64"
  | uint128 => "Uint128"
  | uint256 => "Uint256"

/-- All scalar types. -/
def Scalar.all : List Scalar :=
  [.boolean, .uint8, .uint16, .uint32, .uint64, .uint128, .uint256]

/-- The scalar type that a value names, as a string or as the case of a null. -/
def Scalar.ofJson? (levels : Nat) (value : JsonValue) : Option Scalar :=
  match value with
  | .string (some name) => Scalar.all.find? fun type => type.tag = name
  | _ =>
    match value.case? levels with
    | some (_, name, .null) => Scalar.all.find? fun type => type.tag = name
    | _ => none

/-- The word, if the value is a natural number below 2 to the 64th. -/
def wordOfJson? (value : JsonValue) : Option UInt64 :=
  (value.below? UInt64.size).map UInt64.ofNat

/-- What was read, if it was of the form asked for. -/
def formed {α : Type} : Option α → Except TextError α
  | some read => .ok read
  | none => .error .malformed

namespace Schema

/-- The schema, if it keeps its own rules. -/
def accepted (schema : Schema) : Except TextError Schema :=
  match schema.accept with
  | .ok schema => .ok schema
  | .error (.limit exceeded) => .error (.limit exceeded)
  | .error _ => .error .malformed

/-- A schema made of an element schema and a number of elements, which a record spells. -/
def sequenceOfJson (make : Schema → UInt64 → Schema) (countName : String)
    (readSchema : JsonValue → Except TextError Schema) (value : JsonValue) :
    Except TextError Schema := do
  let read (place : Nat) (member : JsonValue) : Except TextError (Schema ⊕ UInt64) :=
    if place = 0 then (readSchema member).map .inl else (formed (wordOfJson? member)).map .inr
  match ← value.readRecord ["element", countName] read with
  | [some (.inl element), some (.inr count)] => return make element count
  | _ => throw .malformed

/-- A schema made of a number of bits, which a record spells. -/
def bitsOfJson (make : UInt64 → Schema) (countName : String) (value : JsonValue) :
    Except TextError Schema := do
  match ← value.readRecord [countName] fun _ member => formed (wordOfJson? member) with
  | [some count] => return make count
  | _ => throw .malformed

/-- A field, which a record spells. -/
def fieldOfJson (readSchema : JsonValue → Except TextError Schema) (value : JsonValue) :
    Except TextError Field := do
  let read (place : Nat) (member : JsonValue) : Except TextError (String ⊕ Schema) :=
    match place, member with
    | 0, .string (some name) => .ok (.inl name)
    | 0, _ => .error .malformed
    | _, member => (readSchema member).map .inr
  match ← value.readRecord ["name", "schema"] read with
  | [some (.inl name), some (.inr schema)] => return ⟨name, schema⟩
  | _ => throw .malformed

/-- A variant of a union, absent where it is null. -/
def variantOfJson (readSchema : JsonValue → Except TextError Schema) :
    JsonValue → Except TextError (Option Schema)
  | .null => .ok none
  | value => (readSchema value).map some

/-- The elements of an array, each read in its turn. -/
def eachOfJson {α : Type} (read : JsonValue → Except TextError α) :
    JsonValue → Except TextError (List α)
  | .array elements => elements.mapM read
  | _ => .error .malformed

/-- A schema made of a list of parts, which the only member of a record spells. -/
def partsOfJson {α : Type} (make : List α → Schema) (name : String)
    (read : JsonValue → Except TextError α) (value : JsonValue) : Except TextError Schema := do
  match ← value.readRecord [name] fun _ member => eachOfJson read member with
  | [some parts] => return make parts
  | _ => throw .malformed

/-- The schema that a value spells, whose outermost rules are not checked but all others are.

Everything is read in the order in which it stands in the text, so that the first fault counts. -/
def shapeOfJson : (levels : Nat) → JsonValue → Except TextError Schema
  | levels + 1, .object ((some name, content) :: rest) => do
    -- Each object and each array on the way down uses up one level.
    let schema ←
      match name, levels with
      | "Basic", levels => (formed (Scalar.ofJson? levels content)).map scalar
      | "Vector", inner + 1 =>
        sequenceOfJson vector "length" (fun v => do (← shapeOfJson inner v).accepted) content
      | "List", inner + 1 =>
        sequenceOfJson list "max_length" (fun v => do (← shapeOfJson inner v).accepted) content
      | "Bitvector", _ + 1 => bitsOfJson bitvector "length" content
      | "Bitlist", _ + 1 => bitsOfJson bitlist "max_length" content
      | "Container", inner + 3 =>
        partsOfJson container "fields"
          (fieldOfJson fun v => do (← shapeOfJson inner v).accepted) content
      | "Union", inner + 2 =>
        partsOfJson union "variants"
          (variantOfJson fun v => do (← shapeOfJson inner v).accepted) content
      | _, _ => .error .malformed
    if rest.isEmpty then return schema else throw .malformed
  | _, _ => .error .malformed

/-- The schema that a value spells, if all its rules are kept. -/
def ofJson (levels : Nat) (value : JsonValue) : Except TextError Schema := do
  (← shapeOfJson levels value).accepted

end Schema

mutual

/-- The JSON form of a schema. -/
def Schema.toJson : Schema → JsonValue
  | .scalar type => .ofCase "Basic" (.string (some type.tag))
  | .vector element length =>
    .ofCase "Vector" (.ofRecord [("element", element.toJson), ("length", .natural length.toNat)])
  | .list element maxLength =>
    .ofCase "List"
      (.ofRecord [("element", element.toJson), ("max_length", .natural maxLength.toNat)])
  | .bitvector length => .ofCase "Bitvector" (.ofRecord [("length", .natural length.toNat)])
  | .bitlist maxLength =>
    .ofCase "Bitlist" (.ofRecord [("max_length", .natural maxLength.toNat)])
  | .container fields =>
    .ofCase "Container" (.ofRecord [("fields", .array (Schema.fieldsToJson fields))])
  | .union variants =>
    .ofCase "Union" (.ofRecord [("variants", .array (Schema.variantsToJson variants))])

/-- The JSON forms of fields. -/
def Schema.fieldsToJson : List Field → List JsonValue
  | [] => []
  | ⟨name, schema⟩ :: rest =>
    .ofRecord [("name", .string (some name)), ("schema", schema.toJson)] ::
      Schema.fieldsToJson rest

/-- The JSON forms of variants. -/
def Schema.variantsToJson : List (Option Schema) → List JsonValue
  | [] => []
  | some schema :: rest => schema.toJson :: Schema.variantsToJson rest
  | none :: rest => .null :: Schema.variantsToJson rest

end

namespace Schema

/-- What a reader makes of a text, which has to end where the value does. -/
def readText (read : JsonValue → Except TextError Schema) (text : String) :
    Except TextError Schema := do
  let spelled := JsonValue.ofText text
  let schema ← read spelled.value
  if spelled.isWhole then return schema else throw .malformed

/-- The schema that a JSON text spells, whose outermost rules are not checked. -/
def shapeOfText (text : String) : Except TextError Schema :=
  readText (shapeOfJson JsonValue.maxLevels) text

/-- The schema that a JSON text spells. -/
def ofText (text : String) : Except TextError Schema :=
  readText (ofJson JsonValue.maxLevels) text

/-- The JSON text of a schema. -/
def toText (schema : Schema) : String :=
  schema.toJson.toText

end Schema

end Ssz
