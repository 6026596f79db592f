import Ssz.Codec.Encode
import Ssz.Proofs.Codec.Decode
import Ssz.Proofs.Value.Truth

/-! Errors of the codec tell the truth: what is too short is shorter, what is left over is there. -/

namespace Ssz

section Encoding

/-- Laying out parts tells the truth if they do: an offset is refused where it is too great. -/
theorem failsOnly_layOut {parts : List Part} (each : ∀ part ∈ parts,
    FailsOnly ViewError.Truthful part.bytes) (position : Nat) :
    FailsOnly ViewError.Truthful (layOut position parts) := by
  -- The position moves on with each part, and it is what the offset is compared by.
  induction parts generalizing position with
  | nil => exact .ok _
  | cons part rest ih =>
    have own := each part List.mem_cons_self
    have later := ih fun other inside => each other (List.mem_cons_of_mem _ inside)
    refine .ite (fun _ => .ite (fun far => .error far) fun _ => ?_) fun _ => ?_
    · exact own.bind fun bytes _ => (later _).bind fun _ _ => .ok _
    · exact own.bind fun bytes _ => (later _).bind fun _ _ => .ok _

/-- Joining parts tells the truth if they do. -/
theorem failsOnly_joinParts {parts : List Part} (each : ∀ part ∈ parts,
    FailsOnly ViewError.Truthful part.bytes) (fixedSize : Nat) :
    FailsOnly ViewError.Truthful (joinParts fixedSize parts) :=
  (failsOnly_layOut each fixedSize).bind fun _ _ => .ok _

/-- Serializing the content of a sequence tells the truth if serializing an element does. -/
theorem Tree.failsOnly_encodeElements {element : Schema} {encode : Tree → Except ViewError Bytes}
    (each : ∀ node, FailsOnly ViewError.Truthful (encode node)) (content : Tree) (depth : Nat)
    (length : UInt64) :
    FailsOnly ViewError.Truthful (content.encodeElements element encode depth length) := by
  -- Scalars are read out of their leaves, and other elements are parts that are joined.
  unfold encodeElements
  split
  · exact content.failsOnly_packedContent depth _
  · refine (content.failsOnly_nodesAtDepth depth length).bind fun members _ => ?_
    refine failsOnly_joinParts (fun part inside => ?_) _
    obtain ⟨member, _, rfl⟩ := List.mem_map.mp inside
    exact each member

mutual

/-- Serializing tells the truth about the tree. -/
theorem Schema.failsOnly_encode : (schema : Schema) → (tree : Tree) →
    FailsOnly ViewError.Truthful (schema.encode tree)
  | .scalar type, tree => by
    rw [Schema.encode]
    split
    · exact .ok _
    · exact .error trivial
  | .vector element length, tree =>
    tree.failsOnly_encodeElements (Schema.failsOnly_encode element) _ length
  | .list element maxLength, tree => by
    refine tree.failsOnly_listParts.bind fun (content, length) _ => ?_
    -- The stored length is compared with the greatest one as a word.
    refine .ite (fun long => .error (UInt64.lt_iff_toNat_lt.mp long)) fun _ => ?_
    exact content.failsOnly_encodeElements (Schema.failsOnly_encode element) _ length
  | .bitvector length, tree => tree.failsOnly_packedContent _ _
  | .bitlist maxLength, tree => by
    refine tree.failsOnly_listParts.bind fun (content, length) _ => ?_
    refine .ite (fun long => .error (UInt64.lt_iff_toNat_lt.mp long)) fun _ => ?_
    exact (content.failsOnly_packedContent _ _).bind fun _ _ => .ok _
  | .container fields, tree =>
    (tree.failsOnly_nodesAtDepth _ _).bind fun members _ =>
      failsOnly_joinParts (Schema.failsOnly_partsOf fields members) _
  | .union variants, tree =>
    (tree.failsOnly_unionParts variants).bind fun (variant, selector) _ =>
      (Schema.failsOnly_encodeVariant variants selector.toNat variant).bind fun _ _ => .ok _

/-- Serializing members tells the truth about their trees. -/
theorem Schema.failsOnly_partsOf : (fields : List Field) → (members : List Tree) →
    ∀ part ∈ Schema.partsOf fields members, FailsOnly ViewError.Truthful part.bytes
  | [], _ => nofun
  | ⟨_, _⟩ :: _, [] => nofun
  | ⟨_, schema⟩ :: fields, member :: members =>
    List.forall_mem_cons.mpr
      ⟨Schema.failsOnly_encode schema member, Schema.failsOnly_partsOf fields members⟩

/-- Serializing the payload of a union tells the truth about its tree. -/
theorem Schema.failsOnly_encodeVariant : (variants : List (Option Schema)) → (selector : Nat) →
    (tree : Tree) → FailsOnly ViewError.Truthful (Schema.encodeVariant variants selector tree)
  -- Counting the selector down never fails, so only the payload of the variant can.
  | some schema :: _, 0, tree => Schema.failsOnly_encode schema tree
  | none :: _, 0, _ => .ok []
  | some _ :: rest, selector + 1, tree => Schema.failsOnly_encodeVariant rest selector tree
  | none :: rest, selector + 1, tree => Schema.failsOnly_encodeVariant rest selector tree
  | [], _, _ => by
    rw [Schema.encodeVariant]
    · exact .ok []
    all_goals simp

end

end Encoding

section Spans

variable (bytes : Bytes)

/-- Reading an offset tells the truth. -/
theorem failsOnly_readOffset (position : Nat) :
    FailsOnly DecodeError.Truthful (readOffset bytes position) :=
  .ite (fun _ => .ok _) fun _ => .error trivial

/-- Reading a table tells the truth. -/
theorem failsOnly_readTable (count : Nat) :
    FailsOnly DecodeError.Truthful (readTable count bytes) := by
  induction count generalizing bytes with
  | zero => exact .ok []
  | succ count ih =>
    exact (failsOnly_readOffset bytes 0).bind fun _ _ => (ih _).bind fun _ _ => .ok _

/-- Checking a number of elements tells the truth: a number that is too great is greater. -/
theorem Count.failsOnly_check (expected : Count) (count : Nat) :
    FailsOnly DecodeError.Truthful (expected.check count) := by
  cases expected with
  | atMost max => exact .ite (fun above => .error above) fun _ => .ok ()
  | exactly length => exact .ite (fun _ => .ok ()) fun _ => .error trivial

/-- Cutting at offsets tells the truth. -/
theorem failsOnly_spansOfOffsets (offsets : List Nat) (fixedEnd length : Nat) :
    FailsOnly DecodeError.Truthful (spansOfOffsets offsets fixedEnd length) := by
  refine .ite (fun _ => .error trivial) fun _ => ?_
  split
  · exact .error trivial
  · exact .ite (fun _ => .error trivial) fun _ => .ok _

/-- Cutting out elements of varying size tells the truth. -/
theorem failsOnly_variableSpans (expected : Count) :
    FailsOnly DecodeError.Truthful (variableSpans bytes expected) := by
  refine .ite (fun _ => (expected.failsOnly_check 0).bind fun _ _ => .ok _) fun _ => ?_
  -- An input is truncated where it has no room for its first offset.
  refine .ite (fun short => .error short) fun _ => ?_
  refine (failsOnly_readOffset bytes 0).bind fun first _ => ?_
  refine .ite (fun _ => .error trivial) fun _ => .ite (fun _ => .error trivial) fun _ => ?_
  refine (expected.failsOnly_check _).bind fun _ _ => ?_
  exact (failsOnly_readTable bytes _).bind fun offsets _ => failsOnly_spansOfOffsets offsets _ _

/-- Cutting out elements of one size tells the truth: a remainder that is left over is not zero. -/
theorem failsOnly_fixedSpans (size : Nat) (expected : Count) :
    FailsOnly DecodeError.Truthful (fixedSpans bytes size expected) := by
  refine .ite (fun rest => .error (Nat.pos_of_ne_zero rest)) fun _ => ?_
  exact (expected.failsOnly_check _).bind fun _ _ => .ok _

/-- Cutting out elements tells the truth, whether they have one size or not. -/
theorem failsOnly_elementSpans (element : Schema) (expected : Count) :
    FailsOnly DecodeError.Truthful (elementSpans element bytes expected) := by
  unfold elementSpans
  split
  · exact failsOnly_fixedSpans bytes _ expected
  · exact failsOnly_variableSpans bytes expected

/-- Reading the offsets of fields tells the truth. -/
theorem failsOnly_fieldOffsets (fields : List Field) (position : Nat) :
    FailsOnly DecodeError.Truthful (fieldOffsets bytes fields position) := by
  -- Only fields of variable size have an offset, and the position moves on over all of them.
  induction fields generalizing position with
  | nil => exact .ok []
  | cons field rest ih =>
    rw [fieldOffsets]
    split
    · exact ih _
    · exact (failsOnly_readOffset bytes position).bind fun _ _ => (ih _).bind fun _ _ => .ok _

/-- Cutting out fields tells the truth. -/
theorem failsOnly_containerSpans (fields : List Field) :
    FailsOnly DecodeError.Truthful (containerSpans fields bytes) :=
  (failsOnly_fieldOffsets bytes fields 0).bind fun offsets _ =>
    (failsOnly_spansOfOffsets offsets _ _).bind fun _ _ => .ok _

end Spans

section Decoding

variable (bytes : Bytes) {depth : Nat} (shallow : depth < 64)

include shallow in
/-- Filling in decoded nodes tells the truth: nodes without room are more than the level has. -/
theorem Tree.failsOnly_ofDecoded (nodes : List Tree) :
    FailsOnly DecodeError.Truthful (Tree.ofDecoded nodes depth) := by
  refine .mapError fun fault failed => ?_
  show 1 <<< depth < nodes.length
  rw [Nat.one_shiftLeft]
  -- Where there is room for all nodes, filling them in does not fail.
  by_contra fits
  rw [Tree.fill_eq_ok shallow (Nat.le_of_not_lt fits)] at failed
  cases failed

/-- Checking truth values tells the truth. -/
theorem failsOnly_checkBooleans : FailsOnly DecodeError.Truthful (checkBooleans bytes) := by
  unfold checkBooleans
  split
  · exact .error trivial
  · exact .ok ()

/-- Checking a length tells the truth: it is below the least size, or above the fixed one. -/
theorem failsOnly_checkLength (schema : Schema) :
    FailsOnly DecodeError.Truthful (checkLength schema bytes) := by
  refine .ite (fun short => .error short) fun _ => ?_
  split
  · exact .ite (fun long => .error (Nat.sub_pos_of_lt long)) fun _ => .ok ()
  · exact .ok ()

/-- Checking padding tells the truth. -/
theorem failsOnly_checkPadding (length : Nat) :
    FailsOnly DecodeError.Truthful (checkPadding bytes length) := by
  refine .ite (fun _ => .ok ()) fun _ => ?_
  split
  · exact .ite (fun _ => .error trivial) fun _ => .ok ()
  · exact .error trivial

include shallow in
/-- Reading a bitlist tells the truth: a length that is too great is greater. -/
theorem failsOnly_decodeBitlist (maxLength : Nat) :
    FailsOnly DecodeError.Truthful (decodeBitlist bytes maxLength depth) := by
  unfold decodeBitlist
  split
  · exact .error trivial
  · refine .ite (fun _ => .error trivial) fun _ => .ite (fun long => .error long) fun _ => ?_
    exact (Tree.failsOnly_ofDecoded shallow _).bind fun _ _ => .ok _

include shallow in
/-- Reading the elements of a sequence tells the truth if reading one of them does. -/
theorem failsOnly_decodeElements {element : Schema} {decode : Bytes → Except DecodeError Tree}
    (each : ∀ piece, FailsOnly DecodeError.Truthful (decode piece)) (expected : Count) :
    FailsOnly DecodeError.Truthful (decodeElements element decode bytes depth expected) := by
  -- Scalars are cut out of the input by their width, and other elements by their spans.
  cases own : element.scalar? with
  | some type =>
    simp only [decodeElements, own]
    refine .ite (fun rest => .error (Nat.pos_of_ne_zero rest)) fun _ => ?_
    refine (expected.failsOnly_check _).bind fun _ _ => ?_
    have filled := (Tree.failsOnly_ofDecoded shallow ((packBytes bytes).map Tree.leaf)).map
      fun content => (content, UInt64.ofNat (bytes.length / type.byteLength))
    exact .ite (fun _ => (failsOnly_checkBooleans bytes).bind fun _ _ => filled) fun _ => filled
  | none =>
    rw [decodeElements_of_spans own]
    refine (failsOnly_elementSpans bytes element expected).bind fun spans _ => ?_
    refine (FailsOnly.mapM fun piece _ => each piece).bind fun members _ => ?_
    exact (Tree.failsOnly_ofDecoded shallow members).bind fun _ _ => .ok _

/-- Reading an empty variant tells the truth: bytes that are left over are there. -/
theorem failsOnly_absent : FailsOnly DecodeError.Truthful
    (if bytes.isEmpty then .ok (Tree.leafOfBytes []) else .error (.trailingBytes bytes.length)) := by
  refine .ite (fun _ => .ok _) fun some => .error (List.length_pos_iff.mpr ?_)
  simpa using some

/-- Taking the bytes of a span tells the truth. -/
theorem Span.failsOnly_read (span : Span) : FailsOnly DecodeError.Truthful (span.read bytes) :=
  .ite (fun _ => .ok _) fun _ => .error trivial

end Decoding

mutual

/-- Decoding tells the truth about the bytes. -/
theorem Schema.failsOnly_decode : (schema : Schema) → schema.Accepted → (bytes : Bytes) →
    FailsOnly DecodeError.Truthful (schema.decode bytes)
  | .bitlist maxLength, accepted, bytes =>
    failsOnly_decodeBitlist bytes accepted.depth_lt maxLength.toNat
  | .scalar type, _, bytes => by
    refine (failsOnly_checkLength bytes _).bind fun _ _ => ?_
    exact .ite (fun _ => (failsOnly_checkBooleans bytes).bind fun _ _ => .ok _) fun _ => .ok _
  | .vector element length, accepted, bytes =>
    (failsOnly_checkLength bytes _).bind fun _ _ =>
      (failsOnly_decodeElements bytes accepted.depth_lt
        (Schema.failsOnly_decode element accepted.1) _).bind fun _ _ => .ok _
  | .list element maxLength, accepted, bytes =>
    (failsOnly_checkLength bytes _).bind fun _ _ =>
      (failsOnly_decodeElements bytes accepted.depth_lt
        (Schema.failsOnly_decode element accepted.1) _).bind fun _ _ => .ok _
  | .bitvector length, accepted, bytes =>
    (failsOnly_checkLength bytes _).bind fun _ _ =>
      (failsOnly_checkPadding bytes _).bind fun _ _ =>
        Tree.failsOnly_ofDecoded accepted.depth_lt _
  | .container fields, accepted, bytes =>
    (failsOnly_checkLength bytes _).bind fun _ _ =>
      (failsOnly_containerSpans bytes fields).bind fun spans _ =>
        (Schema.failsOnly_decodeFields fields accepted.1 spans bytes).bind fun members _ =>
          Tree.failsOnly_ofDecoded accepted.depth_lt members
  | .union variants, accepted, bytes => by
    refine (failsOnly_checkLength bytes _).bind fun _ _ => ?_
    refine (failsOnly_readOffset bytes 0).bind fun selector _ => ?_
    -- The selector that is read is refused just where it does not number a variant.
    refine .ite (fun above => .error above) fun _ => ?_
    exact (Schema.failsOnly_decodeVariant variants accepted.1 selector _).bind fun _ _ => .ok _

/-- Decoding fields tells the truth about the bytes of their spans. -/
theorem Schema.failsOnly_decodeFields : (fields : List Field) → Schema.AcceptedFields fields →
    (spans : List Span) → (bytes : Bytes) →
      FailsOnly DecodeError.Truthful (Schema.decodeFields fields spans bytes)
  -- Each field is decoded from its own span, and the first that fails is reported.
  | [], _, _, _ => .ok []
  | ⟨_, _⟩ :: _, _, [], _ => .ok []
  | ⟨_, schema⟩ :: fields, accepted, span :: spans, bytes =>
    (span.failsOnly_read bytes).bind fun piece _ =>
      (Schema.failsOnly_decode schema accepted.1 piece).bind fun _ _ =>
        (Schema.failsOnly_decodeFields fields accepted.2 spans bytes).bind fun _ _ => .ok _

/-- Decoding the payload of a union tells the truth: what follows an empty variant is not empty. -/
theorem Schema.failsOnly_decodeVariant : (variants : List (Option Schema)) →
    Schema.AcceptedVariants variants → (selector : Nat) → (bytes : Bytes) →
      FailsOnly DecodeError.Truthful (Schema.decodeVariant variants selector bytes)
  -- Behind an empty variant no bytes may follow, and the bytes that do are counted.
  | some schema :: _, accepted, 0, bytes => Schema.failsOnly_decode schema accepted.1 bytes
  | some _ :: rest, accepted, selector + 1, bytes =>
    Schema.failsOnly_decodeVariant rest accepted.2 selector bytes
  | none :: rest, accepted, selector + 1, bytes =>
    Schema.failsOnly_decodeVariant rest accepted selector bytes
  | none :: _, _, 0, bytes => failsOnly_absent bytes
  | [], _, _, bytes => failsOnly_absent bytes

end

end Ssz
