import Ssz.Bytes
import Ssz.Schema.Kind

/-! What can go wrong, as causes, and how each cause is worded. -/

namespace Ssz

/-- A use beyond the limits that trees, positions and sizes have. -/
inductive LimitError where
  | zeroTooDeep (depth : Nat)
  | levelTooDeep (depth : Nat)
  | tooManyChunks (count depth : Nat)
  | leafTooLong (length : Nat)
  | sizeTooLarge (size : Nat)
  | outsideInput (start stop length : Nat)
  deriving DecidableEq, Repr

/-- The wording of an exceeded limit. -/
def LimitError.message : LimitError → String
  | zeroTooDeep depth => s!"zero subtrees have a depth below 64, not {depth}"
  | levelTooDeep depth => s!"the positions of the level at depth {depth} do not fit in a word"
  | tooManyChunks count depth => s!"{count} chunks do not fit in a tree of depth {depth}"
  | leafTooLong length => s!"a leaf holds at most 32 bytes, not {length}"
  | sizeTooLarge size => s!"a size of {size} bytes does not fit in a word"
  | outsideInput start stop length =>
    s!"bytes {start} to {stop} lie outside an input of {length} bytes"

/-- Why a schema was refused. -/
inductive SchemaError where
  | unsupportedBitWidth (bits : Nat)
  | zeroLength (kind : Kind)
  | emptyContainer
  | duplicateField (name : String)
  | emptyUnion
  | tooManyVariants (count max : Nat)
  | misplacedNoneVariant (selector : Nat)
  | noneOnlyUnion
  | capacityTooLarge (depth max : Nat)
  | sizeOverflow
  | limit (exceeded : LimitError)
  deriving DecidableEq, Repr

/-- The wording of a refused schema. -/
def SchemaError.message : SchemaError → String
  | unsupportedBitWidth bits =>
    s!"unsupported scalar bit width {bits}, expected one of 8, 16, 32, 64, 128, 256"
  | zeroLength kind => s!"{kind.name} length must be positive"
  | emptyContainer => "container must declare at least one field"
  | duplicateField name => s!"duplicate container field name `{name}`"
  | emptyUnion => "union must declare at least one variant"
  | tooManyVariants count max => s!"union declares {count} variants, at most {max} are allowed"
  | misplacedNoneVariant selector =>
    s!"union `None` variant is only allowed at selector 0, found at {selector}"
  | noneOnlyUnion => "union with a single variant cannot use the `None` variant"
  | capacityTooLarge depth max =>
    s!"capacity needs a tree of depth {depth}, at most {max} is supported"
  | sizeOverflow => "serialized size does not fit in memory"
  | limit exceeded => exceeded.message

/-- What a value or a view was expected to be. -/
inductive Expectation where
  | kind (named : Kind)
  | vectorLength
  | bitvectorLength
  | valuePerField
  | unionPayload
  | selectedVariant
  | variantValue
  | listOrBitlist
  | shortUint
  deriving DecidableEq, Repr

/-- The wording of an expectation. -/
def Expectation.text : Expectation → String
  | kind named => named.name
  | vectorLength => "vector of declared length"
  | bitvectorLength => "bitvector of declared length"
  | valuePerField => "one value per container field"
  | unionPayload => "union value matching the selected variant"
  | selectedVariant => "the currently selected union variant"
  | variantValue => "a union variant with a value"
  | listOrBitlist => "list or bitlist"
  | shortUint => "uint of at most 128 bits"

/-- Why a view could not be built, read or updated. -/
inductive ViewError where
  | indexOutOfBounds (index bound : Nat)
  | gindexOutOfBounds (gindex : UInt64)
  | lengthExceedsMax (length max : Nat)
  | unionSelectorOutOfRange (selector variants : Nat)
  | typeMismatch (expected : Expectation)
  | unknownField (name : String)
  | notComposite (kind : Kind)
  | bitNotComposite
  | schemaMismatch
  | limit (exceeded : LimitError)
  deriving DecidableEq, Repr

/-- The wording of a failed access to a view. -/
def ViewError.message : ViewError → String
  | indexOutOfBounds index bound => s!"index {index} is out of bounds (bound {bound})"
  | gindexOutOfBounds gindex => s!"generalized index {gindex} reaches below the tree"
  | lengthExceedsMax length max => s!"length {length} exceeds the maximum of {max}"
  | unionSelectorOutOfRange selector variants =>
    s!"union selector {selector} is out of range for {variants} variants"
  | typeMismatch expected => s!"value does not match schema: expected {expected.text}"
  | unknownField name => s!"container has no field named `{name}`"
  | notComposite kind => s!"{kind.name} has no child elements"
  | bitNotComposite => "bitfield has no child elements"
  | schemaMismatch => "child view schema does not match the declared field schema"
  | limit exceeded => exceeded.message

/-- What is wrong with an offset of a serialization. -/
inductive OffsetFault where
  | tableLength
  | notWholeTable
  | pastEnd
  | notAtFixedEnd
  | decreasing
  deriving DecidableEq, Repr

/-- The wording of a faulty offset. -/
def OffsetFault.text : OffsetFault → String
  | tableLength => "offset table does not match the vector length"
  | notWholeTable => "first offset is not a positive multiple of the offset size"
  | pastEnd => "offset points past the end of the input"
  | notAtFixedEnd => "first offset does not point at the end of the fixed part"
  | decreasing => "offsets are decreasing"

/-- Why a byte string is not a serialization of a schema. -/
inductive DecodeError where
  | truncatedInput (length expected : Nat)
  | invalidOffset (offset : Nat) (fault : OffsetFault)
  | trailingBytes (remaining : Nat)
  | lengthExceedsMax (length max : Nat)
  | invalidBitlistEncoding
  | unionSelectorOutOfRange (selector variants : Nat)
  | invalidBoolean (byte : UInt8)
  | nonZeroPadding (length : Nat)
  | limit (exceeded : LimitError)
  deriving DecidableEq, Repr

/-- The wording of a refused byte string. -/
def DecodeError.message : DecodeError → String
  | truncatedInput length expected =>
    s!"input of {length} bytes is shorter than the required {expected}"
  | invalidOffset offset fault => s!"offset {offset} is invalid: {fault.text}"
  | trailingBytes remaining => s!"{remaining} unread bytes remain after decoding"
  | lengthExceedsMax length max => s!"decoded length {length} exceeds the maximum of {max}"
  | invalidBitlistEncoding => "bitlist encoding is missing its sentinel bit"
  | unionSelectorOutOfRange selector variants =>
    s!"union selector {selector} is out of range for {variants} variants"
  | invalidBoolean byte => s!"byte 0x{String.ofList (hexByte byte)} is not a valid boolean"
  | nonZeroPadding length => s!"bits beyond the declared bitvector length {length} are set"
  | limit exceeded => exceeded.message

/-- Why a text could not be read: it is not of the form asked for, or it asks for too much. -/
inductive TextError where
  | malformed
  | limit (exceeded : LimitError)
  deriving DecidableEq, Repr

/-- Why a hashing configuration could not be put into force. -/
inductive ConfigError where
  | alreadyInitialized
  deriving DecidableEq, Repr

/-- The wording of a refused configuration. -/
def ConfigError.message : ConfigError → String
  | alreadyInitialized => "hashing configuration was already initialized"

end Ssz
