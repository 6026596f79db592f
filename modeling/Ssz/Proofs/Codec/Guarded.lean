import Ssz.View.Basic

/-! Decoding with each step checked: the slices, the word arithmetic, the branches never taken. -/

namespace Ssz

/-- A step that a decoder must never take. -/
inductive Trap where
  | outside (start stop length : Nat)
  | beyondWord (value : Nat)
  | belowZero
  | zeroDivisor
  | wideShift (amount width : Nat)
  | deadEnd
  deriving DecidableEq, Repr

/-- Why a decoder that checks its own steps ends without a result. -/
inductive Stop where
  | trapped (cause : Trap)
  | refused (fault : DecodeError)
  deriving DecidableEq, Repr

/-- The outcome of a decoder that checks its own steps, and not just its input. -/
abbrev Guarded := Except Stop

namespace Guarded

variable {α : Type}

/-- The end of a decoder at a step that it must not take. -/
def trap (cause : Trap) : Guarded α :=
  .error (.trapped cause)

/-- The refusal of an input. -/
def refuse (fault : DecodeError) : Guarded α :=
  .error (.refused fault)

/-- The outcome of a computation that takes no step worth a check. -/
def lift (plain : Except DecodeError α) : Guarded α :=
  plain.mapError .refused

/-- A sum or a product, which has to fit in a word. -/
def word (value : Nat) : Guarded Nat :=
  if value ≤ maxWord then .ok value else trap (.beyondWord value)

/-- A difference, which has to be that of words. -/
def minus (total part : Nat) : Guarded Nat :=
  if part ≤ total then .ok (total - part) else trap .belowZero

/-- A quotient, whose divisor has to be other than zero. -/
def quotient (total size : Nat) : Guarded Nat :=
  if size = 0 then trap .zeroDivisor else .ok (total / size)

/-- A remainder, whose divisor has to be other than zero. -/
def remainder (total size : Nat) : Guarded Nat :=
  if size = 0 then trap .zeroDivisor else .ok (total % size)

/-- The amount of a shift, which has to be below the width of what is shifted. -/
def shiftBy (amount width : Nat) : Guarded Nat :=
  if amount < width then .ok amount else trap (.wideShift amount width)

/-- The bytes of a slice, which has to lie within its input. -/
def slice (bytes : Bytes) (start stop : Nat) : Guarded Bytes :=
  if start ≤ stop ∧ stop ≤ bytes.length then .ok (bytes.slice start stop)
  else trap (.outside start stop bytes.length)

/-- The byte at a position, which has to lie within its input. -/
def byteAt (bytes : Bytes) (position : Nat) : Guarded UInt8 :=
  match bytes[position]? with
  | some byte => .ok byte
  | none => trap (.outside position (position + 1) bytes.length)

/-- The four-byte number at a position. -/
def readOffset (bytes : Bytes) (position : Nat) : Guarded Nat := do
  let stop ← word (position + bytesPerOffset)
  return ofLittleEndian (← slice bytes position stop)

/-- A leaf of bytes, which have to fit in a chunk. -/
def leaf (bytes : Bytes) : Guarded Tree :=
  if bytes.length ≤ 32 then .ok (Tree.leafOfBytes bytes)
  else trap (.outside 0 bytes.length 32)

/-- The tree of a depth over decoded nodes, which has to have room for them. -/
def fill (nodes : List Tree) (depth : Nat) : Guarded Tree :=
  (Tree.fill nodes depth).mapError fun _ => .trapped .deadEnd

/-- The tree of a depth whose leaves hold decoded bytes. -/
def fillBytes (bytes : Bytes) (depth : Nat) : Guarded Tree :=
  fill ((packBytes bytes).map Tree.leaf) depth

/-- Checks the length of an input against the least and the fixed size of a schema. -/
def checkLength (schema : Schema) (bytes : Bytes) : Guarded Unit := do
  -- Sizes were added up when the schema was built, and are kept as words.
  let least ← word schema.minSize
  if bytes.length < least then refuse (.truncatedInput bytes.length least)
  else
    match schema.fixedSize with
    | some size => do
      let size ← word size
      if size < bytes.length then refuse (.trailingBytes (← minus bytes.length size)) else .ok ()
    | none => .ok ()

/-- Checks a number of elements, where a wrong one is reported as an offset. -/
def checkCount (expected : Count) (count : Nat) : Guarded Unit :=
  match expected with
  | .atMost max => if max < count then refuse (.lengthExceedsMax count max) else .ok ()
  | .exactly length =>
    if count = length then .ok ()
    else do refuse (.invalidOffset (← word (count * bytesPerOffset)) .tableLength)

/-- Checks that the bits of the last byte beyond the length of a bitvector are zero. -/
def checkPadding (bytes : Bytes) (length : Nat) : Guarded Unit :=
  if length % 8 = 0 then .ok ()
  else do
    let last ← byteAt bytes (← minus bytes.length 1)
    let spare ← shiftBy (length % 8) 8
    if last.toNat >>> spare ≠ 0 then refuse (.nonZeroPadding length) else .ok ()

/-- The number of zero bits above the highest set bit of a byte. -/
def leadingZeros (byte : UInt8) : Nat :=
  if byte = 0 then 8 else 7 - byte.toNat.log2

/-- The tree of a bitlist, whose length is told by the highest bit of its last byte. -/
def readBitlist (bytes : Bytes) (maxLength depth : Nat) : Guarded Tree :=
  match bytes.getLast? with
  | none => refuse .invalidBitlistEncoding
  | some last =>
    if last = 0 then refuse .invalidBitlistEncoding
    else do
      let sentinel ← minus 7 (leadingZeros last)
      let full ← word ((← minus bytes.length 1) * 8)
      let length ← word (full + sentinel)
      if maxLength < length then refuse (.lengthExceedsMax length maxLength)
      let unmarked := bytes.dropLast ++ [last ^^^ (1 <<< UInt8.ofNat (← shiftBy sentinel 8))]
      let content ← fillBytes (unmarked.take ((length + 7) / 8)) depth
      return content.withLength (UInt64.ofNat length)

/-- The spans of a sequence of elements that all have the same size. -/
def fixedSpans (bytes : Bytes) (size : Nat) (expected : Count) : Guarded (List Span) := do
  let spare ← remainder bytes.length size
  if spare ≠ 0 then refuse (.trailingBytes spare)
  let count ← quotient bytes.length size
  checkCount expected count
  (List.range count).mapM fun entry => do
    return ⟨← word (entry * size), ← word ((← word (entry + 1)) * size)⟩

/-- The spans of a sequence of variable-size elements, cut by the table it begins with. -/
def variableSpans (bytes : Bytes) (expected : Count) : Guarded (List Span) :=
  if bytes.isEmpty then do
    checkCount expected 0
    return []
  else if bytes.length < bytesPerOffset then refuse (.truncatedInput bytes.length bytesPerOffset)
  else do
    let first ← readOffset bytes 0
    if first = 0 ∨ first % bytesPerOffset ≠ 0 then refuse (.invalidOffset first .notWholeTable)
    if bytes.length < first then refuse (.invalidOffset first .pastEnd)
    let count ← quotient first bytesPerOffset
    checkCount expected count
    let offsets ← (List.range count).mapM fun entry => do
      readOffset bytes (← word (entry * bytesPerOffset))
    -- Offsets are only compared with each other and with the length of the input.
    lift (spansOfOffsets offsets first bytes.length)

/-- The spans of the elements of a sequence. -/
def elementSpans (element : Schema) (bytes : Bytes) (expected : Count) : Guarded (List Span) :=
  match element.fixedSize with
  | some size => fixedSpans bytes size expected
  | none => variableSpans bytes expected

/-- The content tree and the number of elements of a sequence. -/
def readElements (element : Schema) (read : Bytes → Guarded Tree) (bytes : Bytes) (depth : Nat)
    (expected : Count) : Guarded (Tree × UInt64) :=
  match element.scalar? with
  | some type => do
    let spare ← remainder bytes.length type.byteLength
    if spare ≠ 0 then refuse (.trailingBytes spare)
    let count ← quotient bytes.length type.byteLength
    checkCount expected count
    if type = .boolean then lift (checkBooleans bytes)
    return (← fillBytes bytes depth, UInt64.ofNat count)
  | none => do
    let spans ← elementSpans element bytes expected
    -- Each element is sliced out of the whole input.
    let members ← spans.mapM fun span => do read (← slice bytes span.start span.stop)
    return (← fill members depth, UInt64.ofNat spans.length)

/-- Where the fixed parts of fields end, counted from a sum of those before them. -/
def fixedEnd (sum : Nat) : List Field → Guarded Nat
  | [] => .ok sum
  | field :: rest => do fixedEnd (← word (sum + field.schema.fixedPart)) rest

/-- The span of each field that stands in place, and the offsets of the other fields. -/
def fieldPlaces (bytes : Bytes) : List Field → (position : Nat) →
    Guarded (List (Option Span) × List Nat)
  | [], _ => .ok ([], [])
  | field :: rest, position =>
    match field.schema.fixedSize with
    | some size => do
      let stop ← word (position + size)
      let (places, offsets) ← fieldPlaces bytes rest stop
      return (some ⟨position, stop⟩ :: places, offsets)
    | none => do
      let offset ← readOffset bytes position
      let next ← word (position + bytesPerOffset)
      let (places, offsets) ← fieldPlaces bytes rest next
      return (none :: places, offset :: offsets)

/-- Checks the length of an input before its body is read, where it is not that of a bitlist. -/
def readBody (schema : Schema) (body : Bytes → Guarded Tree) (bytes : Bytes) : Guarded Tree :=
  match schema with
  | .bitlist maxLength => readBitlist bytes maxLength.toNat schema.depth
  | _ => do
    checkLength schema bytes
    body bytes

end Guarded

open Guarded

mutual

/-- The tree of an input whose length was checked, which never is that of a bitlist. -/
def Schema.guardedBody : Schema → Bytes → Guarded Tree
  | .bitlist _, _ => trap .deadEnd
  | .scalar type, bytes => do
    if type = .boolean then lift (checkBooleans bytes)
    leaf bytes
  | .vector element length, bytes => do
    let depth := (Schema.vector element length).depth
    return (← readElements element (readBody element element.guardedBody) bytes depth
      (.exactly length.toNat)).1
  | .list element maxLength, bytes => do
    let depth := (Schema.list element maxLength).depth
    let (content, length) ← readElements element (readBody element element.guardedBody) bytes depth
      (.atMost maxLength.toNat)
    return content.withLength length
  | .bitvector length, bytes => do
    Guarded.checkPadding bytes length.toNat
    fillBytes bytes (Schema.bitvector length).depth
  | .container fields, bytes => do
    let ends ← Guarded.fixedEnd 0 fields
    let (places, offsets) ← fieldPlaces bytes fields 0
    let pending ← lift (spansOfOffsets offsets ends bytes.length)
    fill (← Schema.guardedFields fields places pending bytes) (Schema.container fields).depth
  | .union variants, bytes => do
    let selector ← Guarded.readOffset bytes 0
    let rest ← slice bytes bytesPerOffset bytes.length
    if variants.length ≤ selector then
      refuse (.unionSelectorOutOfRange selector variants.length)
    let variant ← Schema.guardedVariant variants selector rest
    return variant.withSelector (UInt32.ofNat selector)

/-- The trees of the fields of a container, each from its place or from the next pending span. -/
def Schema.guardedFields : List Field → List (Option Span) → (pending : List Span) → Bytes →
    Guarded (List Tree)
  | ⟨_, schema⟩ :: fields, some place :: places, pending, bytes => do
    let tree ← readBody schema schema.guardedBody (← slice bytes place.start place.stop)
    return tree :: (← Schema.guardedFields fields places pending bytes)
  | ⟨_, schema⟩ :: fields, none :: places, span :: pending, bytes => do
    let tree ← readBody schema schema.guardedBody (← slice bytes span.start span.stop)
    return tree :: (← Schema.guardedFields fields places pending bytes)
  -- There is a pending span for each field of varying size.
  | _ :: _, none :: _, [], _ => trap .deadEnd
  | _, _, _, _ => .ok []

/-- The tree of the selected variant of a union, where the empty variant takes no bytes. -/
def Schema.guardedVariant : List (Option Schema) → (selector : Nat) → Bytes → Guarded Tree
  | some schema :: _, 0, bytes => readBody schema schema.guardedBody bytes
  | none :: _, 0, bytes => if bytes.isEmpty then leaf [] else refuse (.trailingBytes bytes.length)
  | _ :: rest, selector + 1, bytes => Schema.guardedVariant rest selector bytes
  | [], _, _ => trap .deadEnd

end

/-- The view of the value that bytes serialize, decoded with each step checked. -/
def View.guardedDecode (schema : Schema) (bytes : Bytes) : Guarded View := do
  return ⟨schema, ← readBody schema schema.guardedBody bytes⟩

end Ssz
