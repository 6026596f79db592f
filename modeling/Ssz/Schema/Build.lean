import Ssz.Error
import Ssz.Schema.Size

/-! Which schemas are accepted, and the constructors that accept only those. -/

namespace Ssz

/-- The greatest number of union variants. -/
def maxUnionVariants : Nat := 128

/-- The greatest depth of a content tree, which keeps every position below it within a word. -/
def maxChunkDepth : Nat := 62

namespace Schema

/-- The first name that an earlier field already has. -/
def duplicateName? : (seen : List String) → List Field → Option String
  | _, [] => none
  | seen, field :: rest =>
    if field.name ∈ seen then some field.name else duplicateName? (field.name :: seen) rest

/-- Checks the parameters of a schema against the rules of its kind. -/
def checkShape : Schema → Except SchemaError Unit
  | scalar _ => .ok ()
  | vector _ length => if length = 0 then .error (.zeroLength .vector) else .ok ()
  | list _ maxLength => if maxLength = 0 then .error (.zeroLength .list) else .ok ()
  | bitvector length => if length = 0 then .error (.zeroLength .bitvector) else .ok ()
  | bitlist maxLength => if maxLength = 0 then .error (.zeroLength .bitlist) else .ok ()
  | container fields =>
    if fields.isEmpty then .error .emptyContainer
    else
      match duplicateName? [] fields with
      | some name => .error (.duplicateField name)
      | none => .ok ()
  | union variants =>
    if variants.isEmpty then .error .emptyUnion
    else if maxUnionVariants < variants.length then
      .error (.tooManyVariants variants.length maxUnionVariants)
    else
      -- Only the first variant may have no payload, and it may not be the only one.
      match variants.tail.findIdx? Option.isNone with
      | some position => .error (.misplacedNoneVariant (position + 1))
      | none =>
        if variants.length = 1 ∧ variants.head?.join.isNone then .error .noneOnlyUnion else .ok ()

/-- Checks that the content tree is shallow enough. -/
def checkCapacity (schema : Schema) : Except SchemaError Unit :=
  if maxChunkDepth < schema.depth then .error (.capacityTooLarge schema.depth maxChunkDepth)
  else .ok ()

/-- Checks that a size fits in a word. -/
def checkTotal (size : Nat) : Except SchemaError Unit :=
  if maxWord < size then .error .sizeOverflow else .ok ()

/-- Checks that the size of one member, together with its offset or selector, fits in a word. -/
def checkPart (size : Nat) : Except SchemaError Unit :=
  if maxWord < size then .error (.limit (.sizeTooLarge size)) else .ok ()

/-- Checks the sums of the least sizes of fields, from the first one on. -/
def checkFieldSizes : (sum : Nat) → List Field → Except SchemaError Unit
  | _, [] => .ok ()
  | sum, field :: rest => do
    checkPart field.schema.minPart
    checkTotal (sum + field.schema.minPart)
    checkFieldSizes (sum + field.schema.minPart) rest

/-- Checks that the least size, which is the size where that is fixed, fits in a word. -/
def checkSize : Schema → Except SchemaError Unit
  | vector element length => do
    -- The sizes are checked in the order in which they are added up.
    checkPart element.minPart
    checkTotal (length.toNat * element.minPart)
  | container fields => checkFieldSizes 0 fields
  | union variants => checkPart (union variants).minSize
  | schema => checkTotal schema.minSize

/-- Checks a schema whose members have been accepted before. -/
def check (schema : Schema) : Except SchemaError Unit := do
  schema.checkShape
  schema.checkCapacity
  schema.checkSize

/-- The schema, if it is accepted. -/
def accept (schema : Schema) : Except SchemaError Schema := do
  schema.check
  return schema

/-- The unsigned integers of a bit width. -/
def uintOf (bits : Nat) : Except SchemaError Schema :=
  match Scalar.ofBits? bits with
  | some type => .ok (scalar type)
  | none => .error (.unsupportedBitWidth bits)

/-- The sequences of exactly `length` elements. -/
def vectorOf (element : Schema) (length : UInt64) : Except SchemaError Schema :=
  accept (vector element length)

/-- The sequences of at most `maxLength` elements. -/
def listOf (element : Schema) (maxLength : UInt64) : Except SchemaError Schema :=
  accept (list element maxLength)

/-- The strings of exactly `length` bits. -/
def bitvectorOf (length : UInt64) : Except SchemaError Schema :=
  accept (bitvector length)

/-- The strings of at most `maxLength` bits. -/
def bitlistOf (maxLength : UInt64) : Except SchemaError Schema :=
  accept (bitlist maxLength)

/-- The containers with the given fields, in order. -/
def containerOf (fields : List Field) : Except SchemaError Schema :=
  accept (container fields)

/-- The unions of the given variants, numbered from zero. -/
def unionOf (variants : List (Option Schema)) : Except SchemaError Schema :=
  accept (union variants)

/-- The byte strings of exactly `length` bytes. -/
def byteVector (length : UInt64) : Except SchemaError Schema :=
  vectorOf (scalar .uint8) length

/-- The byte strings of at most `maxLength` bytes. -/
def byteList (maxLength : UInt64) : Except SchemaError Schema :=
  listOf (scalar .uint8) maxLength

/-- The thirty-two-byte strings, the type of roots. -/
def bytes32 : Schema :=
  vector (scalar .uint8) 32

end Schema

end Ssz
