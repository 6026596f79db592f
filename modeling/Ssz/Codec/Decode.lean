import Ssz.Codec.Span
import Ssz.Value.Tree

/-! Decoding of hostile bytes: each one is checked and read once, or the input is refused. -/

namespace Ssz

/-- Checks that every byte is a truth value. -/
def checkBooleans (bytes : Bytes) : Except DecodeError Unit :=
  match bytes.find? fun byte => 1 < byte with
  | some byte => .error (.invalidBoolean byte)
  | none => .ok ()

/-- The tree of a depth whose leftmost positions hold decoded nodes. -/
def Tree.ofDecoded (nodes : List Tree) (depth : Nat) : Except DecodeError Tree :=
  (Tree.fill nodes depth).mapError fun _ => .lengthExceedsMax nodes.length (1 <<< depth)

/-- The tree of a depth whose leaves hold decoded bytes. -/
def Tree.ofDecodedBytes (bytes : Bytes) (depth : Nat) : Except DecodeError Tree :=
  Tree.ofDecoded ((packBytes bytes).map Tree.leaf) depth

/-- The tree of a bitlist, whose length is told by the highest bit of its last byte. -/
def decodeBitlist (bytes : Bytes) (maxLength depth : Nat) : Except DecodeError Tree :=
  match bytes.getLast? with
  | none => .error .invalidBitlistEncoding
  | some last =>
    if last = 0 then .error .invalidBitlistEncoding
    else do
      -- The highest bit of the last byte marks the end, and is not one of the bits.
      let sentinel := last.toNat.log2
      let length := 8 * (bytes.length - 1) + sentinel
      if maxLength < length then throw (.lengthExceedsMax length maxLength)
      let unmarked := bytes.dropLast ++ [last ^^^ (1 <<< UInt8.ofNat sentinel)]
      -- A mark at the start of a byte leaves that byte without bits.
      let content ← Tree.ofDecodedBytes (unmarked.take ((length + 7) / 8)) depth
      return content.withLength (UInt64.ofNat length)

/-- The content tree and the number of elements of a sequence. -/
def decodeElements (element : Schema) (decode : Bytes → Except DecodeError Tree) (bytes : Bytes)
    (depth : Nat) (expected : Count) : Except DecodeError (Tree × UInt64) :=
  match element.scalar? with
  | some type =>
    -- Packed scalars fill the chunks of the tree as they stand in the input.
    let size := type.byteLength
    if bytes.length % size ≠ 0 then .error (.trailingBytes (bytes.length % size))
    else do
      let count := bytes.length / size
      expected.check count
      if type = .boolean then checkBooleans bytes
      return (← Tree.ofDecodedBytes bytes depth, UInt64.ofNat count)
  | none => do
    -- Any other element is decoded from its own slice.
    let spans ←
      match element.fixedSize with
      | some size => fixedSpans bytes size expected
      | none => variableSpans bytes expected
    let members ← (cutSpans 0 bytes spans).mapM decode
    return (← Tree.ofDecoded members depth, UInt64.ofNat spans.length)

/-- Checks the length of an input against the least and the fixed size of a schema. -/
def checkLength (schema : Schema) (bytes : Bytes) : Except DecodeError Unit :=
  if bytes.length < schema.minSize then
    .error (.truncatedInput bytes.length schema.minSize)
  else
    -- Only schemas of a fixed size bound the input from above.
    match schema.fixedSize with
    | some size =>
      if size < bytes.length then .error (.trailingBytes (bytes.length - size)) else .ok ()
    | none => .ok ()

/-- Checks that the bits of the last byte beyond the length of a bitvector are zero. -/
def checkPadding (bytes : Bytes) (length : Nat) : Except DecodeError Unit :=
  if length % 8 = 0 then .ok ()
  else
    -- The bits above the last one are all in the last byte.
    match bytes.getLast? with
    | some last =>
      if last.toNat >>> (length % 8) ≠ 0 then .error (.nonZeroPadding length) else .ok ()
    | none => .error (.limit (.outsideInput 0 1 0))

mutual

/-- The tree of the value that bytes serialize, or the first reason why they serialize none. -/
def Schema.decode : Schema → Bytes → Except DecodeError Tree
  | .bitlist maxLength, bytes =>
    -- A bitlist has no length to check before its end mark is found.
    decodeBitlist bytes maxLength.toNat (Schema.bitlist maxLength).depth
  | .scalar type, bytes => do
    checkLength (.scalar type) bytes
    if type = .boolean then checkBooleans bytes
    return Tree.leafOfBytes bytes
  | .vector element length, bytes => do
    checkLength (.vector element length) bytes
    let depth := (Schema.vector element length).depth
    return (← decodeElements element element.decode bytes depth (.exactly length.toNat)).1
  | .list element maxLength, bytes => do
    checkLength (.list element maxLength) bytes
    let depth := (Schema.list element maxLength).depth
    let (content, length) ←
      decodeElements element element.decode bytes depth (.atMost maxLength.toNat)
    return content.withLength length
  | .bitvector length, bytes => do
    checkLength (.bitvector length) bytes
    checkPadding bytes length.toNat
    Tree.ofDecodedBytes bytes (Schema.bitvector length).depth
  | .container fields, bytes => do
    checkLength (.container fields) bytes
    -- All spans are checked before the first member is read.
    let spans ← containerSpans fields bytes
    Tree.ofDecoded (← Schema.decodeFields fields spans bytes) (Schema.container fields).depth
  | .union variants, bytes => do
    checkLength (.union variants) bytes
    -- The selector has the width of an offset, and the payload fills the rest.
    let selector ← readOffset bytes 0
    if variants.length ≤ selector then
      throw (.unionSelectorOutOfRange selector variants.length)
    let variant ← Schema.decodeVariant variants selector (bytes.drop bytesPerOffset)
    return variant.withSelector (UInt32.ofNat selector)

/-- The trees of the fields of a container, each decoded from its span. -/
def Schema.decodeFields : List Field → List Span → Bytes → Except DecodeError (List Tree)
  | ⟨_, schema⟩ :: fields, span :: spans, bytes => do
    let tree ← schema.decode (← span.read bytes)
    return tree :: (← Schema.decodeFields fields spans bytes)
  | _, _, _ => .ok []

/-- The tree of the selected variant of a union, where the empty variant takes no bytes. -/
def Schema.decodeVariant : List (Option Schema) → (selector : Nat) → Bytes →
    Except DecodeError Tree
  | some schema :: _, 0, bytes => schema.decode bytes
  | _ :: rest, selector + 1, bytes => Schema.decodeVariant rest selector bytes
  | _, _, bytes =>
    -- A variant with no payload allows no bytes after the selector.
    if bytes.isEmpty then .ok (Tree.leafOfBytes []) else .error (.trailingBytes bytes.length)

end

end Ssz
