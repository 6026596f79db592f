import Ssz.Error
import Ssz.Json.Token

/-! JSON values: reading them off tokens with a stack of what is open, and writing them. -/

namespace Ssz

/-- A JSON value; strings that are no text are kept as none. -/
inductive JsonValue where
  | null
  | bool (bit : Bool)
  /-- A number without sign, fraction and exponent. -/
  | natural (number : Nat)
  /-- Any other number. -/
  | otherNumber
  | string (text : Option String)
  | array (elements : List JsonValue)
  | object (members : List (Option String × JsonValue))
  /-- What stands where a text ends or stops being well formed. -/
  | broken

/-- What a text spells up to its first fault: a value, and whether that is the whole text. -/
structure JsonText where
  value : JsonValue
  isWhole : Bool

namespace JsonValue

/-- What encloses the value that is being read, with the values read before it in reverse. -/
inductive Enclosing where
  | nothing
  | array (before : List JsonValue) (outer : Enclosing)
  | object (before : List (Option String × JsonValue)) (key : Option String) (outer : Enclosing)

/-- What has been read so far, and so what may follow. -/
inductive Progress where
  /-- A value has to follow. -/
  | value (enclosing : Enclosing)
  /-- An array has been opened: a value or its end follows. -/
  | arrayOpened (outer : Enclosing)
  /-- An object has been opened: a key or its end follows. -/
  | objectOpened (outer : Enclosing)
  /-- A key has to follow. -/
  | key (before : List (Option String × JsonValue)) (outer : Enclosing)
  /-- A colon has to follow. -/
  | colon (before : List (Option String × JsonValue)) (key : Option String) (outer : Enclosing)
  /-- A value is complete: a comma, the end of what encloses it, or nothing follows. -/
  | complete (value : JsonValue) (enclosing : Enclosing)

/-- Reading on with the first token of a value. -/
def begin (enclosing : Enclosing) : JsonToken → Option Progress
  | .null => some (.complete null enclosing)
  | .bool bit => some (.complete (bool bit) enclosing)
  | .natural number => some (.complete (natural number) enclosing)
  | .otherNumber => some (.complete otherNumber enclosing)
  | .string text => some (.complete (string text) enclosing)
  | .openBracket => some (.arrayOpened enclosing)
  | .openBrace => some (.objectOpened enclosing)
  | _ => none

/-- Reading on with one token. -/
def step : Progress → JsonToken → Option Progress
  | .value enclosing, token => begin enclosing token
  | .arrayOpened outer, .closeBracket => some (.complete (array []) outer)
  | .arrayOpened outer, token => begin (.array [] outer) token
  | .objectOpened outer, .closeBrace => some (.complete (object []) outer)
  | .objectOpened outer, .string key => some (.colon [] key outer)
  | .key before outer, .string key => some (.colon before key outer)
  | .colon before key outer, .colon => some (.value (.object before key outer))
  | .complete last (.array before outer), .comma => some (.value (.array (last :: before) outer))
  | .complete last (.array before outer), .closeBracket =>
    some (.complete (array (last :: before).reverse) outer)
  | .complete last (.object before key outer), .comma => some (.key ((key, last) :: before) outer)
  | .complete last (.object before key outer), .closeBrace =>
    some (.complete (object ((key, last) :: before).reverse) outer)
  | _, _ => none

/-- The outermost value when the one being read is the last that is read of any. -/
def Enclosing.close : Enclosing → JsonValue → JsonValue
  | .nothing, value => value
  | .array before outer, value => outer.close (.array (value :: before).reverse)
  | .object before name outer, value => outer.close (.object ((name, value) :: before).reverse)

/-- The outermost value when reading stops, broken at the place where something had to follow. -/
def Progress.stop : Progress → JsonValue
  | .value enclosing => enclosing.close broken
  | .arrayOpened outer => outer.close (array [broken])
  | .objectOpened outer => outer.close (object [(none, broken)])
  | .key before outer => outer.close (object ((none, broken) :: before).reverse)
  | .colon before name outer => outer.close (object ((name, broken) :: before).reverse)
  | .complete last .nothing => last
  | .complete last (.array before outer) => outer.close (array (broken :: last :: before).reverse)
  | .complete last (.object before name outer) =>
    outer.close (object ((none, broken) :: (name, last) :: before).reverse)

/-- What tokens spell, after what has been read before. -/
def readOn (progress : Progress) : List JsonToken → JsonText
  | [] =>
    match progress with
    | .complete value .nothing => ⟨value, true⟩
    | _ => ⟨progress.stop, false⟩
  | token :: rest =>
    match step progress token with
    | some next => readOn next rest
    | none => ⟨progress.stop, false⟩

/-- What a text spells up to its first fault. -/
def ofText (text : String) : JsonText :=
  readOn (.value .nothing) (JsonToken.ofText text)

/-- The value that a text spells, if it is well formed. -/
def ofText? (text : String) : Option JsonValue :=
  let read := ofText text
  if read.isWhole then some read.value else none

mutual

/-- The tokens of a value. -/
def tokens : JsonValue → List JsonToken
  | null => [.null]
  | bool bit => [.bool bit]
  | natural number => [.natural number]
  | otherNumber => [.otherNumber]
  | string text => [.string text]
  | array elements => .openBracket :: elementTokens elements ++ [.closeBracket]
  | object members => .openBrace :: memberTokens members ++ [.closeBrace]
  | broken => [.fault]

/-- The tokens of the elements of an array, divided by commas. -/
def elementTokens : List JsonValue → List JsonToken
  | [] => []
  | [last] => last.tokens
  | element :: rest => element.tokens ++ .comma :: elementTokens rest

/-- The tokens of the members of an object, divided by commas. -/
def memberTokens : List (Option String × JsonValue) → List JsonToken
  | [] => []
  | [(key, last)] => .string key :: .colon :: last.tokens
  | (key, member) :: rest =>
    .string key :: .colon :: member.tokens ++ .comma :: memberTokens rest

end

/-- The text of a value, without blanks. -/
def toText (value : JsonValue) : String :=
  JsonToken.toText value.tokens

/-- The natural number, if the value is one below a bound. -/
def below? (bound : Nat) : JsonValue → Option Nat
  | natural number => if number < bound then some number else none
  | _ => none

/-- The elements, if the value is an array that lies within the levels allowed. -/
def elements? : (levels : Nat) → JsonValue → Option (Nat × List JsonValue)
  | inner + 1, array elements => some (inner, elements)
  | _, _ => none

mutual

/-- Whether nothing in a value is broken. -/
def isWhole : JsonValue → Bool
  | array elements => elementsWhole elements
  | object members => membersWhole members
  | broken => false
  | _ => true

/-- Whether nothing in the elements of an array is broken. -/
def elementsWhole : List JsonValue → Bool
  | [] => true
  | element :: rest => element.isWhole && elementsWhole rest

/-- Whether nothing in the members of an object is broken. -/
def membersWhole : List (Option String × JsonValue) → Bool
  | [] => true
  | (_, member) :: rest => member.isWhole && membersWhole rest

end

/-- The members of a record found in an object, each read in its turn by its place among `names`.

Members with other names are passed over; a second one of the same name is refused. -/
def readMembers {α : Type} (names : List String)
    (read : (place : Nat) → JsonValue → Except TextError α) : (found : List (Option α)) →
    List (Option String × JsonValue) → Except TextError (List (Option α))
  | found, [] => .ok found
  | _, (none, _) :: _ => .error .malformed
  | found, (some name, member) :: rest =>
    match names.idxOf? name with
    | none => if member.isWhole then readMembers names read found rest else .error .malformed
    | some place =>
      -- A name that comes twice is refused, while unknown names are skipped.
      if found[place]?.join.isSome then .error .malformed
      else do
        let part ← read place member
        readMembers names read (found.set place (some part)) rest

/-- The members of a record that is an array of all of them, `count` from `place` on. -/
def readPlaces {α : Type} (read : (place : Nat) → JsonValue → Except TextError α) :
    (place count : Nat) → List JsonValue → Except TextError (List (Option α))
  | _, 0, [] => .ok []
  | place, count + 1, member :: rest => do
    let part ← read place member
    return some part :: (← readPlaces read (place + 1) count rest)
  | _, _, _ => .error .malformed

/-- The named members of a record, which is an object of them in any order or an array in order. -/
def readRecord {α : Type} (names : List String)
    (read : (place : Nat) → JsonValue → Except TextError α) :
    JsonValue → Except TextError (List (Option α))
  | object members => readMembers names read (List.replicate names.length none) members
  | array elements => readPlaces read 0 names.length elements
  | _ => .error .malformed

/-- The named members of a record that lies within the levels allowed. -/
def record? (names : List String) : (levels : Nat) → JsonValue →
    Option (Nat × List (Option JsonValue))
  | inner + 1, value => do
    return (inner, ← (value.readRecord names fun _ member => .ok member).toOption)
  | 0, _ => none

/-- The content of the one-member object that tells a case by the name of its member. -/
def case? : (levels : Nat) → JsonValue → Option (Nat × String × JsonValue)
  | inner + 1, object [(some name, content)] => some (inner, name, content)
  | _, _ => none

/-- The one-member object that tells a case by the name of its member. -/
def ofCase (name : String) (content : JsonValue) : JsonValue :=
  object [(some name, content)]

/-- The object with the given members. -/
def ofRecord (members : List (String × JsonValue)) : JsonValue :=
  object (members.map fun member => (some member.1, member.2))

/-- How many arrays and objects may be open at once in a text that is read. -/
def maxLevels : Nat := 127

end JsonValue

/-- The byte string, if the value is an array of the given number of bytes. -/
def Bytes.ofJson? (length levels : Nat) (value : JsonValue) : Option Bytes := do
  let (_, elements) ← value.elements? levels
  if elements.length = length then
    elements.mapM fun element => (element.below? 256).map UInt8.ofNat
  else none

/-- An array of the bytes. -/
def Bytes.toJson (bytes : Bytes) : JsonValue :=
  .array (bytes.map fun byte => .natural byte.toNat)

end Ssz
