import Ssz.Proofs.Codec.Follows
import Ssz.Proofs.Schema.Overflow

/-! Decoding is safe: on every input of an accepted schema all steps are within their bounds. -/

namespace Ssz

namespace Guarded

section Slices

variable {bytes : Bytes} {spans : List Span} {slices : List Bytes}

/-- Slices that are cut out of a short input are short. -/
theorem short_of_cutInto (short : bytes.length < 2 ^ 60) (cut : CutInto bytes spans slices) :
    ∀ slice ∈ slices, slice.length < 2 ^ 60 := by
  -- A slice is no longer than where its span stops, which lies within the input.
  induction cut with
  | nil => simp
  | @cons span slice _ _ head _ ih =>
    obtain ⟨_, inside, rfl⟩ := head
    have sized : (bytes.slice span.start span.stop).length = span.stop - span.start :=
      Bytes.length_slice inside
    simp only [List.mem_cons, forall_eq_or_imp]
    exact ⟨by omega, ih⟩

/-- Spans within the input are sliced out of it one by one. -/
theorem mapM_slice (read : Bytes → Guarded Tree) (cut : CutInto bytes spans slices) :
    (spans.mapM fun span => do read (← slice bytes span.start span.stop)) = slices.mapM read := by
  induction cut with
  | nil => rfl
  | cons head _ ih =>
    obtain ⟨ordered, inside, rfl⟩ := head
    rw [List.mapM_cons, List.mapM_cons, ih, slice_of_le ordered inside, ok_bind]

end Slices

section Elements

variable {element : Schema} {bytes : Bytes} {depth : Nat} {expected : Count}

/-- The elements of a sequence are read as they are decoded, if each of them is. -/
theorem follows_readElements {read : Bytes → Guarded Tree}
    {decode : Bytes → Except DecodeError Tree} (short : bytes.length < 2 ^ 60)
    (shallow : depth < 64)
    (fits : ∀ count, expected.check count = .ok () → element.elementChunks count ≤ 2 ^ depth)
    (positive : ∀ size, element.fixedSize = some size → 0 < size)
    (follows : ∀ slice : Bytes, slice.length < 2 ^ 60 → Follows (read slice) (decode slice)) :
    Follows (readElements element read bytes depth expected)
      (decodeElements element decode bytes depth expected) := by
  cases own : element.scalar? with
  | some type =>
    have width : type.byteLength ≠ 0 := Nat.ne_of_gt type.byteLength_pos
    simp only [readElements, decodeElements, own, remainder, quotient, if_neg width, ok_bind]
    refine .ite (fun _ => .refuse (by simp)) fun whole => ?_
    have few := Nat.div_le_self bytes.length type.byteLength
    refine (follows_checkCount expected (by omega)).bind fun _ checked => ?_
    -- The chunks of the bytes are those of the elements, for which there is room.
    have room := fits _ checked
    simp only [Schema.elementChunks, own,
      Nat.div_mul_cancel (Nat.dvd_of_mod_eq_zero (not_not.mp whole))] at room
    have filled := (follows_fillBytes shallow room).bind fun content _ =>
      .ok (content, UInt64.ofNat (bytes.length / type.byteLength))
    refine .ite (fun _ => ?_) fun _ => filled
    exact (follows_checkBooleans bytes).bind fun _ _ => filled
  | none =>
    rw [decodeElements_of_spans own]
    simp only [readElements, own]
    refine (follows_elementSpans short positive expected).bind fun spans read => ?_
    obtain ⟨checked, cut, _⟩ := elementSpans_sound positive read
    rw [mapM_slice _ cut]
    refine (Follows.mapM fun slice member =>
      follows slice (short_of_cutInto short cut slice member)).bind fun nodes members => ?_
    have room := fits _ checked
    simp only [Schema.elementChunks, own, cut.length_eq,
      (mapM_eq_ok.mp members).length_eq] at room
    exact (follows_fill shallow room).bind fun content _ => .ok _

end Elements

/-- The spans of fields: those of fields in place, and the pending ones for the others in turn. -/
inductive Supplies : List (Option Span) → (pending : List Span) → List Span → Prop where
  | nil : Supplies [] [] []
  | inPlace {places pending spans} (span : Span) (rest : Supplies places pending spans) :
      Supplies (some span :: places) pending (span :: spans)
  | byOffset {places pending spans} (span : Span) (rest : Supplies places pending spans) :
      Supplies (none :: places) (span :: pending) (span :: spans)

/-- The fixed parts of fields are added up within a word. -/
theorem fixedEnd_eq (fields : List Field) (sum : Nat)
    (small : sum + Schema.fixedEnd fields < 2 ^ 64) :
    fixedEnd sum fields = .ok (sum + Schema.fixedEnd fields) := by
  induction fields generalizing sum with
  | nil => rfl
  | cons field rest ih =>
    simp only [Schema.fixedEnd] at small ⊢
    rw [fixedEnd, word_of_lt (by omega), ok_bind, ih _ (by omega), Nat.add_assoc]

/-- Within the input the places of fields and their offsets are found, a span for each field. -/
theorem fieldPlaces_eq {bytes : Bytes} (short : bytes.length < 2 ^ 60) (fields : List Field)
    (position : Nat) (room : position + Schema.fixedEnd fields ≤ bytes.length) :
    ∃ places offsets, fieldPlaces bytes fields position = .ok (places, offsets) ∧
      fieldOffsets bytes fields position = .ok offsets ∧
      ∀ ends pending, pending.length = offsets.length →
        Supplies places pending (fieldSpans ends fields position pending) := by
  -- The fixed parts that remain lie within the input, so no position that is passed leaves a word.
  induction fields generalizing position with
  | nil =>
    refine ⟨[], [], rfl, rfl, fun ends pending sized => ?_⟩
    obtain rfl := List.length_eq_zero_iff.mp sized
    exact .nil
  | cons field rest ih =>
    rw [Schema.fixedEnd] at room
    cases fixed : field.schema.fixedSize with
    | some size =>
      rw [Schema.fixedPart_of_fixed fixed] at room
      obtain ⟨places, offsets, found, listed, supplies⟩ := ih (position + size) (by omega)
      refine ⟨some ⟨position, position + size⟩ :: places, offsets, ?_, ?_, ?_⟩
      · simp only [fieldPlaces, fixed, word_of_lt (show position + size < 2 ^ 64 by omega), ok_bind,
          found, pure_eq_ok]
      · simp only [fieldOffsets, fixed, listed]
      · intro ends pending sized
        simp only [fieldSpans, fixed]
        exact .inPlace _ (supplies ends pending sized)
    | none =>
      rw [Schema.fixedPart_of_varying fixed] at room
      obtain ⟨places, offsets, found, listed, supplies⟩ :=
        ih (position + bytesPerOffset) (by omega)
      obtain ⟨guarded, plain⟩ := readOffset_eq short position (by omega)
      generalize ofLittleEndian (bytes.slice position _) = offset at guarded plain
      refine ⟨none :: places, offset :: offsets, ?_, ?_, ?_⟩
      · simp only [fieldPlaces, fixed, guarded, ok_bind, found, pure_eq_ok,
          word_of_lt (show position + bytesPerOffset < 2 ^ 64 by omega)]
      · simp only [fieldOffsets, fixed, plain, ok_bind, listed, pure_eq_ok]
      · intro ends pending sized
        cases pending with
        | nil => cases sized
        | cons span pending =>
          simp only [fieldSpans, fixed, List.headD_cons, List.tail_cons]
          exact .byOffset _ (supplies ends pending (Nat.succ.inj sized))

end Guarded

open Guarded

/-- Short inputs of a schema are decoded as they are with each step checked. -/
def Schema.Follows (schema : Schema) : Prop :=
  ∀ bytes : Bytes, bytes.length < 2 ^ 60 →
    Guarded.Follows (readBody schema schema.guardedBody bytes) (schema.decode bytes)

mutual

/-- Every short input of an accepted schema is decoded as it is with each step checked. -/
theorem Schema.follows_decode : (schema : Schema) → schema.Accepted → schema.Follows
  | .scalar type, accepted, bytes, short => by
    refine (follows_checkLength accepted.minSize_le bytes).bind fun _ sized => ?_
    have sized := (checkLength_eq_ok.mp sized).1 type.byteLength rfl
    -- No scalar is wider than a chunk.
    have built : leaf bytes = .ok (Tree.leafOfBytes bytes) := if_pos (sized ▸ type.byteLength_le)
    simp only [Schema.guardedBody, built]
    refine .ite (fun _ => ?_) fun _ => .ok _
    exact (follows_checkBooleans bytes).bind fun _ _ => .ok _
  | .vector element length, accepted, bytes, short => by
    refine (follows_checkLength accepted.minSize_le bytes).bind fun _ _ => ?_
    refine (follows_readElements short accepted.depth_lt ?_
      (Schema.fixedSize_pos element accepted.1)
      (Schema.follows_decode element accepted.1)).bind fun result _ => .ok _
    exact fun count checked => Count.check_exactly.mp checked ▸ Schema.vector_fits element length
  | .list element maxLength, accepted, bytes, short => by
    refine (follows_checkLength accepted.minSize_le bytes).bind fun _ _ => ?_
    refine (follows_readElements short accepted.depth_lt ?_
      (Schema.fixedSize_pos element accepted.1)
      (Schema.follows_decode element accepted.1)).bind fun result _ => .ok _
    exact fun count checked => Schema.list_fits element (Count.check_atMost.mp checked)
  | .bitvector length, accepted, bytes, short => by
    refine (follows_checkLength accepted.minSize_le bytes).bind fun _ sized => ?_
    have sized := (checkLength_eq_ok.mp sized).1 _ rfl
    have some := Schema.length_pos_of_shape (Schema.check_eq_ok.mp accepted.check).1
    have fits := Schema.bitvector_fits length
    refine (follows_checkPadding (by omega) length.toNat).bind fun _ _ => ?_
    exact follows_fillBytes accepted.depth_lt (by omega)
  | .bitlist maxLength, accepted, bytes, short =>
    follows_readBitlist short accepted.depth_lt fun _ bounded => Schema.bitlist_fits bounded
  | .container fields, accepted, bytes, short => by
    refine (follows_checkLength accepted.minSize_le bytes).bind fun _ sized => ?_
    obtain ⟨exact, least⟩ := checkLength_eq_ok.mp sized
    have room := Nat.le_trans (Schema.fixedEnd_le fields) least
    obtain ⟨places, offsets, found, listed, supplies⟩ :=
      fieldPlaces_eq short fields 0 (by rwa [Nat.zero_add])
    have ends := fixedEnd_eq fields 0 (by omega)
    rw [Nat.zero_add] at ends
    simp only [Schema.guardedBody, ends, found, ok_bind, containerSpans, listed, bind_assoc]
    refine (follows_spansOfOffsets offsets (Schema.fixedEnd fields) bytes.length).bind
      fun pending cut => ?_
    -- The spans that were checked cut the input into pieces of the fields.
    have read : containerSpans fields bytes =
        .ok (fieldSpans (Schema.fixedEnd fields) fields 0 pending) := by
      simp only [containerSpans, listed, cut, ok_bind, pure_eq_ok]
    obtain ⟨pieces, each, slices, _⟩ := containerSpans_sound read room
      (fun fixed => exact _ (Schema.fieldSizes_fixed fixed))
    refine (Schema.follows_decodeFields fields accepted.1 bytes short places pending _ _
      (supplies _ pending (length_spansOfOffsets cut)) slices).bind fun nodes members => ?_
    obtain ⟨_, represents, _⟩ :=
      Schema.decodeFields_sound fields accepted.1 pieces _ bytes nodes each slices members
    exact follows_fill accepted.depth_lt
      (represents.length_eq.2 ▸ Schema.container_fits fields)
  | .union variants, accepted, bytes, short => by
    refine (follows_checkLength accepted.minSize_le bytes).bind fun _ sized => ?_
    have least := (checkLength_eq_ok.mp sized).2
    have room : bytesPerOffset ≤ bytes.length := Nat.le_trans (Nat.le_add_right _ _) least
    obtain ⟨guarded, plain⟩ := readOffset_eq short 0 (by rwa [Nat.zero_add])
    generalize ofLittleEndian _ = selector at guarded plain
    have rest : bytes.slice bytesPerOffset bytes.length = bytes.drop bytesPerOffset := by
      rw [Bytes.slice, List.take_of_length_le (Nat.le_of_eq List.length_drop)]
    simp only [Schema.guardedBody, guarded, plain, ok_bind, slice_of_le room (Nat.le_refl _), rest]
    refine .ite (fun _ => .refuse (by simp)) fun within => ?_
    exact (Schema.follows_decodeVariant variants accepted.1 selector (Nat.lt_of_not_le within) _
      (by rw [List.length_drop]; omega)).bind fun variant _ => .ok _

/-- The fields of a container are read from the spans that they are decoded from. -/
theorem Schema.follows_decodeFields : (fields : List Field) → Schema.AcceptedFields fields →
    (bytes : Bytes) → bytes.length < 2 ^ 60 → (places : List (Option Span)) →
      (pending spans : List Span) → (slices : List Bytes) → Supplies places pending spans →
        CutInto bytes spans slices →
          Guarded.Follows (Schema.guardedFields fields places pending bytes)
            (Schema.decodeFields fields spans bytes)
  | [], _, bytes, _, places, pending, spans, _, _, _ => by
    simp only [Schema.guardedFields, Schema.decodeFields]
    exact .ok []
  | ⟨_, schema⟩ :: fields, accepted, bytes, short, _, _, _, _, supplies, cut => by
    cases supplies with
    | nil => exact .ok []
    | inPlace span rest | byOffset span rest =>
      cases cut with
      | cons head tail =>
        -- Wherever the span of a field comes from, it lies within the input.
        obtain ⟨ordered, inside, rfl⟩ := head
        have sized : (bytes.slice span.start span.stop).length = span.stop - span.start :=
          Bytes.length_slice inside
        simp only [Schema.guardedFields, Schema.decodeFields, slice_of_le ordered inside,
          Span.read_eq_ok ordered inside, ok_bind]
        refine (Schema.follows_decode schema accepted.1 _ (by omega)).bind fun tree _ => ?_
        exact (Schema.follows_decodeFields fields accepted.2 bytes short _ _ _ _ rest tail).bind
          fun trees _ => .ok _

/-- The variant of a union is read as it is decoded. -/
theorem Schema.follows_decodeVariant : (variants : List (Option Schema)) →
    Schema.AcceptedVariants variants → (selector : Nat) → selector < variants.length →
      (bytes : Bytes) → bytes.length < 2 ^ 60 →
        Guarded.Follows (Schema.guardedVariant variants selector bytes)
          (Schema.decodeVariant variants selector bytes)
  -- The selector is within the variants, so the count never runs past their end.
  | some schema :: _, accepted, 0, _, bytes, short =>
    Schema.follows_decode schema accepted.1 bytes short
  | none :: _, _, 0, _, bytes, _ => by
    simp only [Schema.guardedVariant, Schema.decodeVariant]
    exact .ite (fun _ => .ok _) fun _ => .refuse (by simp)
  | some _ :: rest, accepted, selector + 1, within, bytes, short =>
    Schema.follows_decodeVariant rest accepted.2 selector (Nat.lt_of_succ_lt_succ within) bytes
      short
  | none :: rest, accepted, selector + 1, within, bytes, short =>
    Schema.follows_decodeVariant rest accepted selector (Nat.lt_of_succ_lt_succ within) bytes short

end

namespace View

/--
Decoding is safe: a short input of an accepted schema is decoded or refused for a fault of its own.
On the way no slice or index lies outside its input, no sum, product or difference leaves a word,
nothing is divided by zero, and no branch is taken that is not meant to be reached.
-/
theorem decode_safe {schema : Schema} (accepted : schema.Accepted) {bytes : Bytes}
    (short : bytes.length < 2 ^ 60) :
    (∀ cause, guardedDecode schema bytes ≠ .error (.trapped cause)) ∧
      guardedDecode schema bytes = lift (View.decode schema bytes) ∧
      ∀ exceeded, View.decode schema bytes ≠ .error (.limit exceeded) := by
  have follows : Guarded.Follows (guardedDecode schema bytes) (View.decode schema bytes) :=
    (Schema.follows_decode schema accepted bytes short).bind fun tree _ => .ok _
  refine ⟨fun cause trapped => ?_, follows⟩
  -- What follows the unchecked decoder is a result or a refusal, never a step out of bounds.
  rw [follows.1] at trapped
  cases ended : View.decode schema bytes <;> simp [ended, lift, Except.mapError] at trapped

/-- An offset far behind the end of its input is refused, and nothing is read there. -/
theorem decode_safe_offset :
    guardedDecode (.union [none, some (.list (.list (.scalar .uint8) 4) 2)])
        [1, 0, 0, 0, 0xfc, 0xff, 0xff, 0xff] =
      .error (.refused (.invalidOffset 0xfffffffc .pastEnd)) :=
  (@decode_safe (.union [none, some (.list (.list (.scalar .uint8) 4) 2)])
    ⟨⟨⟨⟨trivial, rfl⟩, rfl⟩, trivial⟩, rfl⟩ _ (by decide)).2.1.trans rfl

end View

end Ssz
