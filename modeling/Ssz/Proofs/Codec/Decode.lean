import Ssz.Proofs.Codec.Bits
import Ssz.Proofs.Codec.Elements
import Ssz.Proofs.Codec.Size

/-! Decoding: it accepts exactly the serializations of values, and builds the canonical trees. -/

namespace Ssz

/-- An exact number of elements is asked for. -/
theorem Count.check_exactly {length count : Nat} :
    (Count.exactly length).check count = .ok () ↔ count = length := by
  simp [check]

/-- No more elements than a limit are asked for. -/
theorem Count.check_atMost {max count : Nat} :
    (Count.atMost max).check count = .ok () ↔ count ≤ max := by
  simp [check]

/-- Bytes pass as truth values exactly when each is zero or one. -/
theorem checkBooleans_eq_ok {bytes : Bytes} :
    checkBooleans bytes = .ok () ↔ ∀ byte ∈ bytes, byte ≤ 1 := by
  unfold checkBooleans
  cases found : bytes.find? fun byte => 1 < byte with
  | none => simpa [UInt8.not_lt] using found
  | some byte =>
    -- A byte that was found is above one, and it is one of the input.
    have large := List.find?_some found
    have member := List.mem_of_find?_eq_some found
    simp only [reduceCtorEq, false_iff, not_forall]
    exact ⟨byte, member, UInt8.not_le.mpr (by simpa using large)⟩

/-- The length of an input passes its check exactly when the sizes of the schema allow it. -/
theorem checkLength_eq_ok {schema : Schema} {bytes : Bytes} :
    checkLength schema bytes = .ok () ↔ schema.sizes.Admits bytes.length := by
  simp only [checkLength, Sizes.Admits, Schema.minSize, Schema.fixedSize]
  -- Where a size is fixed it is also the least one, so too short comes first.
  by_cases short : bytes.length < schema.sizes.least
  · simp [short]
  · cases fixed : schema.sizes.fixed with
    | none => simp [short, Nat.le_of_not_lt short]
    | some size =>
      have least := Schema.least_eq_fixed schema size fixed
      by_cases long : size < bytes.length
      · simp [short, long, Nat.ne_of_gt long]
      · have same : bytes.length = size := by omega
        simp [same, least]

namespace Tree

variable {depth : Nat}

/-- Decoded bytes that fit are put into the full tree of those bytes. -/
theorem ofDecodedBytes_eq_ok {bytes : Bytes} (shallow : depth < 64)
    (fits : (bytes.length + 31) / 32 ≤ 2 ^ depth) :
    ofDecodedBytes bytes depth = .ok (ofBytes depth bytes) := by
  rw [ofDecodedBytes, ofDecoded, fill_eq_ok shallow (by simpa using fits), ofNodes_packBytes]
  rfl

/-- Decoded nodes that fit are put into the full tree of those nodes. -/
theorem ofDecoded_eq_ok {nodes : List Tree} (shallow : depth < 64)
    (fits : nodes.length ≤ 2 ^ depth) : ofDecoded nodes depth = .ok (ofNodes depth nodes) := by
  rw [ofDecoded, fill_eq_ok shallow fits]
  rfl

end Tree

/-- What is known of the values that a decoder of elements accepts. -/
def Schema.Sound (schema : Schema) (decode : Bytes → Except DecodeError Tree) : Prop :=
  ∀ (bytes : Bytes) (tree : Tree), decode bytes = .ok tree →
    ∃ value, schema.Represents value tree ∧ schema.serialize value = bytes ∧
      schema.OffsetsFit value

/-- What is known of the serializations that a decoder of elements accepts. -/
def Schema.Complete (schema : Schema) (decode : Bytes → Except DecodeError Tree) : Prop :=
  ∀ (value : Value) (tree : Tree), schema.Represents value tree → schema.OffsetsFit value →
    decode (schema.serialize value) = .ok tree

/-- Decoded slices are the serializations of values that their nodes represent. -/
theorem Schema.values_of_slices {element : Schema} {decode : Bytes → Except DecodeError Tree}
    (sound : element.Sound decode) {slices : List Bytes} {nodes : List Tree}
    (read : List.Forall₂ (fun slice node => decode slice = .ok node) slices nodes) :
    ∃ elements, List.Forall₂ element.Represents elements nodes ∧
      elements.map element.serialize = slices ∧
      ∀ member ∈ elements, element.OffsetsFit member := by
  induction read with
  | nil => exact ⟨[], .nil, rfl, by simp⟩
  | cons head _ ih =>
    -- Each slice is the serialization of a value of its own.
    obtain ⟨value, inhabits, same, fit⟩ := sound _ _ head
    obtain ⟨elements, each, rest, later⟩ := ih
    exact ⟨value :: elements, .cons inhabits each, by rw [List.map_cons, same, rest],
      by simpa using ⟨fit, later⟩⟩

/-- The pieces of elements are those of their serializations. -/
theorem Schema.slicePieces_serialize (element : Schema) (elements : List Value) :
    slicePieces element (elements.map element.serialize) = element.elementPieces elements := by
  rw [slicePieces, List.map_map]
  rfl

section Elements

variable {element : Schema} {decode : Bytes → Except DecodeError Tree} {bytes : Bytes}
  {depth : Nat} {expected : Count} {content : Tree} {length : UInt64}

/-- Elements that are no scalars are decoded from their spans. -/
theorem decodeElements_of_spans (own : element.scalar? = none) :
    decodeElements element decode bytes depth expected =
      (elementSpans element bytes expected >>= fun spans =>
        (cutSpans 0 bytes spans).mapM decode >>= fun members =>
          Tree.ofDecoded members depth >>= fun content =>
            .ok (content, UInt64.ofNat spans.length)) := by
  simp only [decodeElements, own, elementSpans]
  -- Both ways to cut the input are followed by the same steps.
  cases element.fixedSize <;> rfl

/-- A decoded sequence is the serialization of the elements that its content tree holds. -/
theorem decodeElements_sound (shallow : depth < 64)
    (fits : ∀ count, expected.check count = .ok () → element.elementChunks count ≤ 2 ^ depth)
    (positive : ∀ size, element.fixedSize = some size → 0 < size) (sound : element.Sound decode)
    (read : decodeElements element decode bytes depth expected = .ok (content, length)) :
    ∃ elements, expected.check elements.length = .ok () ∧
      length = UInt64.ofNat elements.length ∧
      Tree.HoldsElements element element.Represents elements depth content ∧
      Piece.assemble (element.elementPieces elements) = bytes ∧
      (∀ member ∈ elements, element.OffsetsFit member) ∧
      Piece.OffsetsFit (element.elementPieces elements) := by
  cases own : element.scalar? with
  | some type =>
    -- Packed elements are the bytes themselves, in pieces of the width of the scalar.
    obtain rfl := Schema.eq_scalar own
    simp only [decodeElements, own] at read
    split at read
    · cases read
    rename_i whole
    obtain ⟨⟨⟩, checked, read⟩ := bind_eq_ok.mp read
    have exact : bytes.length = bytes.length / type.byteLength * type.byteLength :=
      (Nat.div_mul_cancel (Nat.dvd_of_mod_eq_zero (not_not.mp whole))).symm
    obtain ⟨pieces, counted, widths, joined⟩ := exists_pieces_of_width _ _ exact
    have room := fits _ checked
    simp only [Schema.elementChunks, own, ← exact] at room
    -- Only booleans do not allow all bytes, and the decoder has checked those.
    have spelled : ∀ piece ∈ pieces, type.Spelled piece := by
      intro piece member
      refine ⟨widths piece member, ?_⟩
      rintro rfl byte inside
      simp only [if_true, bind_eq_ok] at read
      obtain ⟨⟨⟩, booleans, _⟩ := read
      exact checkBooleans_eq_ok.mp booleans byte (joined ▸ List.mem_flatten_of_mem member inside)
    -- The tree is filled with the bytes, whether booleans were checked before or not.
    have built : (⟨Tree.ofBytes depth bytes, UInt64.ofNat (bytes.length / type.byteLength)⟩ :
        Tree × UInt64) = (content, length) := by
      rw [Tree.ofDecodedBytes_eq_ok shallow room] at read
      split at read
      · obtain ⟨⟨⟩, _, read⟩ := bind_eq_ok.mp read
        exact Except.ok.inj read
      · exact Except.ok.inj read
    obtain ⟨rfl, rfl⟩ := Prod.mk.inj built
    refine ⟨pieces.map type.decode, by simpa [counted] using checked, by simp [counted],
      (Tree.holdsElements_packed own).mpr ⟨pieces, spelled, rfl, by rw [joined]⟩, ?_, ?_, ?_⟩
    · rw [Schema.assemble_packed spelled, joined]
    · simp [Schema.OffsetsFit]
    · rw [Schema.elementPieces_packed spelled]
      exact Piece.offsetsFit_inline (by simp)
  | none =>
    -- Other elements are decoded each from its own slice of the input.
    rw [decodeElements_of_spans own] at read
    obtain ⟨spans, cut, read⟩ := bind_eq_ok.mp read
    obtain ⟨nodes, members, read⟩ := bind_eq_ok.mp read
    obtain ⟨checked, slices, fit, joined⟩ := elementSpans_sound positive cut
    rw [mapM_eq_ok] at members
    obtain ⟨elements, each, serialized, later⟩ := Schema.values_of_slices sound members
    have counted : spans.length = elements.length := by
      rw [slices.length_eq, ← serialized, List.length_map]
    have room := fits _ checked
    simp only [Schema.elementChunks, own, counted, each.length_eq] at room
    rw [Tree.ofDecoded_eq_ok shallow room] at read
    obtain ⟨rfl, rfl⟩ := Prod.mk.inj (Except.ok.inj read)
    -- Every slice is the serialization of its element, so the pieces are those of the elements.
    rw [← serialized, Schema.slicePieces_serialize] at fit joined
    exact ⟨elements, counted ▸ checked, by rw [counted],
      (Tree.holdsElements_subtrees own).mpr ⟨nodes, each, rfl⟩, joined, later, fit⟩

/-- The serialization of elements is decoded into the content tree that holds them. -/
theorem decodeElements_complete {elements : List Value} (shallow : depth < 64)
    (fits : element.elementChunks elements.length ≤ 2 ^ depth)
    (positive : ∀ size, element.fixedSize = some size → 0 < size)
    (complete : element.Complete decode) (checked : expected.check elements.length = .ok ())
    (holds : Tree.HoldsElements element element.Represents elements depth content)
    (each : ∀ member ∈ elements, element.OffsetsFit member)
    (fit : Piece.OffsetsFit (element.elementPieces elements)) :
    decodeElements element decode (Piece.assemble (element.elementPieces elements)) depth expected =
      .ok (content, UInt64.ofNat elements.length) := by
  cases own : element.scalar? with
  | some type =>
    obtain rfl := Schema.eq_scalar own
    obtain ⟨pieces, spelled, rfl, rfl⟩ := (Tree.holdsElements_packed own).mp holds
    have width := Scalar.length_flatten spelled
    simp only [Schema.elementChunks, own, List.length_map, ← width] at fits
    -- The joined spellings divide into the scalars that they were made of.
    have counted : pieces.flatten.length / type.byteLength = pieces.length := by
      rw [width, Nat.mul_div_cancel _ type.byteLength_pos]
    -- Each byte of joined truth values belongs to one of them.
    have booleans : type = .boolean → checkBooleans pieces.flatten = .ok () := by
      intro same
      rw [checkBooleans_eq_ok]
      intro byte member
      obtain ⟨piece, inside, within⟩ := List.mem_flatten.mp member
      exact (spelled piece inside).2 same byte within
    rw [List.length_map] at checked
    rw [Schema.assemble_packed spelled]
    simp only [decodeElements, own, counted, checked, ok_bind,
      Tree.ofDecodedBytes_eq_ok shallow fits, List.length_map, pure_eq_ok]
    rw [width, Nat.mul_mod_left]
    split
    · rename_i impossible
      exact absurd rfl impossible
    · split
      · rename_i same
        rw [booleans same, ok_bind]
      · rfl
  | none =>
    obtain ⟨nodes, inhabits, rfl⟩ := (Tree.holdsElements_subtrees own).mp holds
    simp only [Schema.elementChunks, own, inhabits.length_eq] at fits
    -- Elements of a fixed size all serialize to that size.
    have sized : ∀ size, element.fixedSize = some size →
        ∀ slice ∈ elements.map element.serialize, slice.length = size := by
      intro size fixed slice member
      obtain ⟨value, inside, rfl⟩ := List.mem_map.mp member
      exact (holds.admitted value inside).1 size fixed
    obtain ⟨spans, cut, counted, slices⟩ := elementSpans_assemble positive sized
      (by simpa using checked) (by rwa [Schema.slicePieces_serialize])
    rw [Schema.slicePieces_serialize] at cut slices
    have members : (elements.map element.serialize).mapM decode = .ok nodes := by
      rw [mapM_eq_ok, List.forall₂_map_left_iff]
      clear cut slices counted sized fits holds checked fit
      induction inhabits with
      | nil => exact .nil
      | @cons value node _ _ head _ ih =>
        simp only [List.mem_cons, forall_eq_or_imp] at each
        exact .cons (complete value node head each.1) (ih each.2)
    rw [decodeElements_of_spans own, cut, ok_bind, slices, members, ok_bind,
      Tree.ofDecoded_eq_ok shallow fits, ok_bind, counted, List.length_map]

end Elements

end Ssz
