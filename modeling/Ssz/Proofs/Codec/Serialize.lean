import Ssz.Proofs.Codec.Layout
import Ssz.Proofs.Value.Tree

/-! The serialization of plain values, by recursion on the schema, and how long it is. -/

namespace Ssz

/-- The bytes of a scalar: little-endian integers, and one byte for a truth value. -/
def Scalar.spelling (type : Scalar) : Value → Bytes
  | .bool bit => [if bit then 1 else 0]
  | .uint number => littleEndian type.byteLength number.toNat
  | .uint256 bytes => bytes.toList
  | _ => []

mutual

/-- The serialization of a value of a schema. -/
def Schema.serialize : Schema → Value → Bytes
  | .scalar type, value => type.spelling value
  | .vector element _, .sequence elements | .list element _, .sequence elements =>
    Piece.assemble (elements.map fun member => ⟨!element.isFixedSize, element.serialize member⟩)
  | .bitvector _, .bits bits => packBits bits
  -- A sentinel bit right after the last one tells the length.
  | .bitlist _, .bits bits => packBits (bits ++ [true])
  | .container fields, .container members => Piece.assemble (Schema.pieces fields members)
  | .union variants, .union selector payload =>
    littleEndian bytesPerOffset selector.toNat ++
      Schema.serializeVariant variants selector.toNat payload
  | _, _ => []

/-- The serialized members of a container. -/
def Schema.pieces : List Field → List Value → List Piece
  | ⟨_, schema⟩ :: fields, member :: members =>
    ⟨!schema.isFixedSize, schema.serialize member⟩ :: Schema.pieces fields members
  | _, _ => []

/-- The serialization of the payload of a union, empty for the empty variant. -/
def Schema.serializeVariant : List (Option Schema) → (selector : Nat) → Option Value → Bytes
  | some schema :: _, 0, some value => schema.serialize value
  | _ :: rest, selector + 1, payload => Schema.serializeVariant rest selector payload
  | _, _, _ => []

end

/-- The serialized elements of a sequence. -/
def Schema.elementPieces (element : Schema) (elements : List Value) : List Piece :=
  elements.map fun member => ⟨!element.isFixedSize, element.serialize member⟩

mutual

/-- In every composite inside a value, the variable members start within reach of an offset. -/
def Schema.OffsetsFit : Schema → Value → Prop
  -- Every layout on the way down has to fit, not only the outermost one.
  | .vector element _, .sequence elements | .list element _, .sequence elements =>
    (∀ member ∈ elements, element.OffsetsFit member) ∧
      Piece.OffsetsFit (element.elementPieces elements)
  | .container fields, .container members =>
    Schema.FieldsFit fields members ∧ Piece.OffsetsFit (Schema.pieces fields members)
  | .union variants, .union selector payload =>
    Schema.VariantFits variants selector.toNat payload
  | _, _ => True

/-- The offsets inside each member of a container fit. -/
def Schema.FieldsFit : List Field → List Value → Prop
  | ⟨_, schema⟩ :: fields, member :: members =>
    schema.OffsetsFit member ∧ Schema.FieldsFit fields members
  | _, _ => True

/-- The offsets inside the payload of a union fit. -/
def Schema.VariantFits : List (Option Schema) → (selector : Nat) → Option Value → Prop
  | some schema :: _, 0, some value => schema.OffsetsFit value
  | _ :: rest, selector + 1, payload => Schema.VariantFits rest selector payload
  | _, _, _ => True

end

/-- A scalar that can be serialized has that serialization. -/
theorem Scalar.spelling_of_encode {type : Scalar} {value : Value} {bytes : Bytes}
    (written : type.encode value = .ok bytes) : type.spelling value = bytes := by
  cases value with
  | uint number =>
    by_cases isBoolean : type = boolean
    · subst isBoolean
      cases written
    · -- An integer that is too large has no serialization, so there is nothing to compare.
      rw [encode_uint isBoolean] at written
      split at written
      · exact Except.ok.inj written
      · cases written
  | _ => cases type <;> first | exact Except.ok.inj written | cases written

/-- The value that bytes spell is serialized to those bytes. -/
theorem Scalar.spelling_decode {type : Scalar} {bytes : Bytes} (spelled : type.Spelled bytes) :
    type.spelling (type.decode bytes) = bytes :=
  spelling_of_encode (encode_decode spelled)

namespace Schema

/-- Packed elements serialize to the spellings they were read from. -/
theorem elementPieces_packed {type : Scalar} {spellings : List Bytes}
    (spelled : ∀ piece ∈ spellings, type.Spelled piece) :
    (Schema.scalar type).elementPieces (spellings.map type.decode) =
      spellings.map (⟨false, ·⟩) := by
  rw [elementPieces, List.map_map]
  -- A scalar has a fixed size, so every piece lies inline.
  apply List.map_congr_left
  intro piece member
  simp only [Function.comp_apply, serialize, Scalar.spelling_decode (spelled piece member)]
  rfl

/-- A sequence of packed scalars serializes to its joined spellings. -/
theorem assemble_packed {type : Scalar} {spellings : List Bytes}
    (spelled : ∀ piece ∈ spellings, type.Spelled piece) :
    Piece.assemble ((Schema.scalar type).elementPieces (spellings.map type.decode)) =
      spellings.flatten := by
  rw [elementPieces_packed spelled, Piece.assemble_inline]
  · -- The bytes of the pieces are the spellings themselves.
    rw [List.map_map]
    exact congrArg _ (List.map_id spellings)
  · simp

end Schema

end Ssz
