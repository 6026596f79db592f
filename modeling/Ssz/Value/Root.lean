import Ssz.Merkleize
import Ssz.Schema.Build
import Ssz.Value.Scalar

/-! The root of a value under a schema, computed from chunks without building a tree. -/

namespace Ssz

/-- The root of the tree of a depth whose leaves are the given chunks. -/
def merkleRoot (config : HashingConfig) (chunks : List Chunk) (depth : Nat) :
    Except ViewError Chunk :=
  (merkleize config chunks depth).mapError .limit

/--
The root of the content of a sequence, whose scalar elements share leaves. Elements with roots of
their own may be worked on by tasks; their results are taken in order, so the first element that
fails is the one that counts.
-/
def sequenceRoot (config : HashingConfig) (element : Schema)
    (rootOf : Value → Except ViewError Chunk) (elements : List Value) (depth : Nat) :
    Except ViewError Chunk :=
  -- Scalars are packed into chunks, and each other element has a root of its own.
  match element.scalar? with
  | some type => do merkleRoot config (packBytes (← type.encodeAll elements)) depth
  | none => do merkleRoot config (← elements.mapM rootOf) depth

mutual

/--
The root of a value, or the first reason why the value does not inhabit the schema, with members
evaluated in order.
-/
def Schema.rootOf (config : HashingConfig) : Schema → Value → Except ViewError Chunk
  | .scalar type, value => do
    return Chunk.padded (← type.encode value)
  | .vector element length, .sequence elements =>
    if elements.length ≠ length.toNat then .error (.typeMismatch .vectorLength)
    else
      sequenceRoot config element (element.rootOf config) elements
        (Schema.vector element length).depth
  | .list element maxLength, .sequence elements =>
    if maxLength.toNat < elements.length then
      .error (.lengthExceedsMax elements.length maxLength.toNat)
    else do
      let content ←
        sequenceRoot config element (element.rootOf config) elements
          (Schema.list element maxLength).depth
      return mixInLength content (UInt64.ofNat elements.length)
  | .bitvector length, .bits bits =>
    if bits.length ≠ length.toNat then .error (.typeMismatch .bitvectorLength)
    else merkleRoot config (packBytes (packBits bits)) (Schema.bitvector length).depth
  | .bitlist maxLength, .bits bits =>
    if maxLength.toNat < bits.length then .error (.lengthExceedsMax bits.length maxLength.toNat)
    else do
      let content ←
        merkleRoot config (packBytes (packBits bits)) (Schema.bitlist maxLength).depth
      return mixInLength content (UInt64.ofNat bits.length)
  | .container fields, .container members =>
    if members.length ≠ fields.length then .error (.typeMismatch .valuePerField)
    else do
      merkleRoot config (← Schema.rootsOf config fields members) (Schema.container fields).depth
  | .union variants, .union selector value =>
    if variants.length ≤ selector.toNat then
      .error (.unionSelectorOutOfRange selector.toNat variants.length)
    else do
      return mixInSelector (← Schema.variantRoot config variants selector.toNat value) selector
  | schema, _ => .error (.typeMismatch (.kind schema.kind))

/-- The roots of the members of a container, which are evaluated in order up to the first failure. -/
def Schema.rootsOf (config : HashingConfig) :
    List Field → List Value → Except ViewError (List Chunk)
  | ⟨_, schema⟩ :: fields, member :: members => do
    let root ← schema.rootOf config member
    return root :: (← Schema.rootsOf config fields members)
  | _, _ => .ok []

/-- The root below the selector of a union, which is zero for the empty variant. -/
def Schema.variantRoot (config : HashingConfig) : List (Option Schema) → (selector : Nat) →
    Option Value → Except ViewError Chunk
  | some schema :: _, 0, some value => schema.rootOf config value
  | none :: _, 0, none => .ok Chunk.zero
  | _ :: rest, selector + 1, value => Schema.variantRoot config rest selector value
  | _, _, _ => .error (.typeMismatch .unionPayload)

end

end Ssz
