import Ssz.Codec.Encode
import Ssz.Proofs.Checked

/-! Encoding with its branches told apart: which check or read ends it, where it gives no bytes. -/

namespace Ssz

/-- What ends an encoder without bytes. -/
inductive Halt where
  /-- A child, a chunk or a selector that the tree does not have. -/
  | unreadable (fault : ViewError)
  /-- A stored length over the limit of its list. -/
  | overLimit (length max : Nat)
  /-- A variable member that starts too far from the beginning of its composite. -/
  | tooFar (start : Nat)
  /-- A size that is no word, which leaves the encoder without an answer. -/
  | beyondWord (size : Nat)
  /-- An index outside what it looks into, which leaves the encoder without an answer. -/
  | outside (index length : Nat)

/-- The error that the encoder gives for what ends it, if it still gives one. -/
def Halt.fault? : Halt → Option ViewError
  | unreadable fault => some fault
  | overLimit length max => some (.lengthExceedsMax length max)
  | tooFar start => some (.lengthExceedsMax start maxOffset)
  | beyondWord _ | outside _ _ => none

/-- The outcome of an encoder that tells its branches apart. -/
abbrev Traced := Except Halt

namespace Traced

variable {α β : Type}

/-- What is read from a tree. -/
def read (plain : Except ViewError α) : Traced α :=
  plain.mapError .unreadable

/-- What is there is read. -/
@[simp] theorem read_ok (result : α) : read (.ok result) = .ok result := rfl

/-- A sum or a product, which has to fit in a word. -/
def word (size : Nat) : Traced Nat :=
  if size ≤ maxWord then .ok size else .error (.beyondWord size)

/-- Checks a stored length against the limit of its list. -/
def checkLimit (length max : UInt64) : Traced Unit :=
  if max < length then .error (.overLimit length.toNat max.toNat) else .ok ()

/-- The bits of a bitlist and a sentinel bit, whose byte has to be there. -/
def mark (bytes : Bytes) (length : Nat) : Traced Bytes :=
  let padded := if length % 8 = 0 then bytes ++ [0] else bytes
  if length / 8 < padded.length then .ok (markEnd bytes length)
  else .error (.outside (length / 8) padded.length)

/-- A member of a composite: whether it is reached by an offset, and its traced serialization. -/
structure Part where
  isVariable : Bool
  bytes : Traced Bytes

/-- The fixed and the variable bytes of parts, whose variable bytes begin at a position. -/
def layOut (position : Nat) : List Part → Traced (Bytes × Bytes)
  | [] => .ok ([], [])
  | part :: rest =>
    if part.isVariable then do
      let start ← word position
      -- The start is held against the reach of an offset before anything is encoded there.
      if maxOffset < start then .error (.tooFar start)
      else do
        let bytes ← part.bytes
        let (front, back) ← layOut (start + bytes.length) rest
        return (littleEndian bytesPerOffset start ++ front, bytes ++ back)
    else do
      let bytes ← part.bytes
      let (front, back) ← layOut position rest
      return (bytes ++ front, back)

/-- The serialization of a composite whose parts have a fixed part of the given size. -/
def join (fixedSize : Nat) (parts : List Part) : Traced Bytes := do
  let (front, back) ← layOut (← word fixedSize) parts
  return front ++ back

/-- The serialization of a sequence read from its content tree. -/
def elements (element : Schema) (trace : Tree → Traced Bytes) (content : Tree) (depth : Nat)
    (length : UInt64) : Traced Bytes :=
  match element.scalar? with
  -- The number of packed bytes is a product of words.
  | some type => do read (content.packedContent depth (← word (length.toNat * type.byteLength)))
  | none => do
    let members ← read (content.nodesAtDepth depth length)
    -- All elements have one schema, so all of them are inline or none is.
    let isVariable := !element.isFixedSize
    join (members.length * element.fixedPart)
      (members.map fun member => ⟨isVariable, trace member⟩)

end Traced

open Traced

mutual

/-- The serialization of the value that a tree holds, or what ends the encoder. -/
def Schema.trace : Schema → Tree → Traced Bytes
  | .scalar type, tree =>
    match tree.chunk? with
    | some chunk => .ok (chunk.slice 0 type.byteLength)
    | none => .error (.unreadable (.gindexOutOfBounds Gindex.root))
  | .vector element length, tree =>
    elements element element.trace tree (Schema.vector element length).depth length
  | .list element maxLength, tree => do
    let (content, length) ← read tree.listParts
    checkLimit length maxLength
    elements element element.trace content (Schema.list element maxLength).depth length
  | .bitvector length, tree =>
    read (tree.packedContent (Schema.bitvector length).depth ((length.toNat + 7) / 8))
  | .bitlist maxLength, tree => do
    let (content, length) ← read tree.listParts
    checkLimit length maxLength
    let bytes ←
      read (content.packedContent (Schema.bitlist maxLength).depth ((length.toNat + 7) / 8))
    mark bytes length.toNat
  | .container fields, tree => do
    let members ←
      read (tree.nodesAtDepth (Schema.container fields).depth (UInt64.ofNat fields.length))
    join (Schema.fixedEnd fields) (Schema.tracedParts fields members)
  | .union variants, tree => do
    let (variant, selector) ← read (tree.unionParts variants)
    let bytes ← Schema.traceVariant variants selector.toNat variant
    return littleEndian bytesPerOffset selector.toNat ++ bytes

/-- The traced parts of the members of a container. -/
def Schema.tracedParts : List Field → List Tree → List Traced.Part
  | ⟨_, schema⟩ :: fields, member :: members =>
    ⟨!schema.isFixedSize, schema.trace member⟩ :: Schema.tracedParts fields members
  | _, _ => []

/-- The traced serialization of the selected variant of a union, which has to be there. -/
def Schema.traceVariant : List (Option Schema) → (selector : Nat) → Tree → Traced Bytes
  | some schema :: _, 0, tree => schema.trace tree
  | none :: _, 0, _ => .ok []
  | _ :: rest, selector + 1, tree => Schema.traceVariant rest selector tree
  | [], selector, _ => .error (.outside selector 0)

end

namespace Traced

variable {α β : Type}

/-- The encoder ends as its trace tells: with the same result, or the error of what ended it. -/
def Tells (traced : Traced α) (plain : Except ViewError α) : Prop :=
  match traced with
  | .ok result => plain = .ok result
  -- Where the trace has no error to give, the encoder gives no answer to compare.
  | .error halt => ∀ fault, halt.fault? = some fault → plain = .error fault

namespace Tells

/-- The same result is told of itself. -/
theorem ok (result : α) : Tells (.ok result) (.ok result) := rfl

/-- What is read from a tree is told as it is read. -/
theorem read (plain : Except ViewError α) : Tells (Traced.read plain) plain := by
  cases plain with
  | ok result => rfl
  | error fault =>
    intro given same
    rw [Option.some.inj same]

/-- What ends the encoder is told by the error that the encoder gives for it. -/
theorem halt {halt : Halt} {fault : ViewError} (given : halt.fault? = some fault) :
    Tells (.error halt : Traced α) (.error fault) := by
  intro other same
  rw [Option.some.inj (given.symm.trans same)]

/-- Two steps are told when the first is, and the second is on every result of the first. -/
theorem bind {traced : Traced α} {plain : Except ViewError α} {next : α → Traced β}
    {plainNext : α → Except ViewError β} (first : Tells traced plain)
    (later : ∀ result, Tells (next result) (plainNext result)) :
    Tells (traced >>= next) (plain >>= plainNext) := by
  -- A halt in the first step is one of the whole, and then the second step is not taken.
  cases traced with
  | ok result =>
    obtain rfl : plain = .ok result := first
    exact later result
  | error halt =>
    intro fault given
    rw [first fault given, error_bind]

/-- A size is no step of the encoder, unless it is no word. -/
theorem word (size : Nat) {next : Nat → Traced α} {plain : Except ViewError α}
    (later : Tells (next size) plain) : Tells (Traced.word size >>= next) plain := by
  unfold Traced.word
  split
  · exact later
  · -- The encoder has no answer where its arithmetic ends.
    intro fault given
    cases given

end Tells

/-- Parts that are laid out are told when each of them is. -/
theorem tells_layOut {parts : List Part} {plain : List Ssz.Part}
    (each : List.Forall₂ (fun part own => part.isVariable = own.isVariable ∧
      Tells part.bytes own.bytes) parts plain) (position : Nat) :
    Tells (layOut position parts) (Ssz.layOut position plain) := by
  -- Both sides check a start, encode the part there, and go on behind it.
  induction each generalizing position with
  | nil => exact .ok _
  | @cons part own parts plain head _ ih =>
    obtain ⟨kind, told⟩ := head
    rw [layOut, Ssz.layOut, kind]
    cases own.isVariable with
    | true =>
      refine .word position ?_
      simp only [if_true]
      split
      · exact .halt rfl
      · exact told.bind fun bytes => (ih _).bind fun laid => .ok _
    | false => exact told.bind fun bytes => (ih _).bind fun laid => .ok _

/-- A composite is told when each of its parts is. -/
theorem tells_join {parts : List Part} {plain : List Ssz.Part}
    (each : List.Forall₂ (fun part own => part.isVariable = own.isVariable ∧
      Tells part.bytes own.bytes) parts plain) (fixedSize : Nat) :
    Tells (join fixedSize parts) (joinParts fixedSize plain) :=
  .word fixedSize ((tells_layOut each fixedSize).bind fun _ => .ok _)

/-- A sequence is told when its elements are. -/
theorem tells_elements {element : Schema} {trace : Tree → Traced Bytes}
    {encode : Tree → Except ViewError Bytes} (told : ∀ tree, Tells (trace tree) (encode tree))
    (content : Tree) (depth : Nat) (length : UInt64) :
    Tells (elements element trace content depth length)
      (content.encodeElements element encode depth length) := by
  unfold elements Tree.encodeElements
  -- Packed bytes are read at once, and other elements are parts with a trace each.
  cases element.scalar? with
  | some type => exact .word _ (.read _)
  | none =>
    refine (Tells.read _).bind fun members => tells_join ?_ _
    rw [List.forall₂_map_left_iff, List.forall₂_map_right_iff, List.forall₂_same]
    exact fun member _ => ⟨rfl, told member⟩

/-- The limit of a list is checked by the encoder as its trace tells. -/
theorem tells_checkLimit (length max : UInt64) {next : Unit → Traced α}
    {plain : Except ViewError α} (later : Tells (next ()) plain) :
    Tells (checkLimit length max >>= next)
      (if max < length then .error (.lengthExceedsMax length.toNat max.toNat) else plain) := by
  unfold checkLimit
  split
  · exact .halt rfl
  · exact later

/-- The end of a bitlist is marked by the encoder as its trace tells. -/
theorem tells_mark (bytes : Bytes) (length : Nat) :
    Tells (mark bytes length) (.ok (markEnd bytes length)) := by
  -- A sentinel without a byte to stand in would be a halt that no error tells.
  rw [mark]
  by_cases inside : length / 8 < (if length % 8 = 0 then bytes ++ [0] else bytes).length
  · rw [if_pos inside]
    exact .ok _
  · rw [if_neg inside]
    intro fault given
    cases given

end Traced

mutual

/-- Whatever the tree, the encoder ends as its trace tells. -/
theorem Schema.tells_trace : (schema : Schema) → (tree : Tree) →
    Tells (schema.trace tree) (schema.encode tree)
  -- The trace is composed as the encoder is, with one lemma for each step.
  | .scalar type, tree => by
    rw [Schema.trace, Schema.encode]
    cases tree.chunk? with
    | some chunk => exact .ok _
    | none => exact .halt rfl
  | .vector element length, tree =>
    tells_elements (Schema.tells_trace element) tree _ length
  | .list element maxLength, tree => by
    rw [Schema.trace, Schema.encode]
    refine (Tells.read _).bind fun parts => ?_
    exact tells_checkLimit parts.2 maxLength
      (tells_elements (Schema.tells_trace element) parts.1 _ parts.2)
  | .bitvector length, tree => .read _
  | .bitlist maxLength, tree => by
    rw [Schema.trace, Schema.encode]
    refine (Tells.read _).bind fun parts => ?_
    exact tells_checkLimit parts.2 maxLength
      ((Tells.read _).bind fun bytes => tells_mark bytes parts.2.toNat)
  | .container fields, tree => by
    rw [Schema.trace, Schema.encode]
    exact (Tells.read _).bind fun members =>
      tells_join (Schema.tells_tracedParts fields members) _
  | .union variants, tree => by
    rw [Schema.trace, Schema.encode]
    refine (Tells.read _).bind fun parts => ?_
    exact (Schema.tells_traceVariant variants parts.2.toNat parts.1).bind fun bytes => .ok _

/-- The members of a container are encoded as their traces tell. -/
theorem Schema.tells_tracedParts : (fields : List Field) → (members : List Tree) →
    List.Forall₂ (fun part own => part.isVariable = own.isVariable ∧ Tells part.bytes own.bytes)
      (Schema.tracedParts fields members) (Schema.partsOf fields members)
  | ⟨_, schema⟩ :: fields, member :: members =>
    .cons ⟨rfl, Schema.tells_trace schema member⟩ (Schema.tells_tracedParts fields members)
  | [], _ => .nil
  | ⟨_, _⟩ :: _, [] => .nil

/-- The variant of a union is encoded as its trace tells. -/
theorem Schema.tells_traceVariant : (variants : List (Option Schema)) → (selector : Nat) →
    (tree : Tree) →
      Tells (Schema.traceVariant variants selector tree)
        (Schema.encodeVariant variants selector tree)
  | some schema :: _, 0, tree => Schema.tells_trace schema tree
  | none :: _, 0, _ => .ok []
  | some _ :: rest, selector + 1, tree => Schema.tells_traceVariant rest selector tree
  | none :: rest, selector + 1, tree => Schema.tells_traceVariant rest selector tree
  | [], _, _ => by
    -- Without a variant the trace has no error to give.
    intro fault given
    cases given

end

end Ssz
