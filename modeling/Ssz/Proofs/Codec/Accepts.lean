import Ssz.Proofs.Codec.Decode
import Ssz.Proofs.Schema.Overflow

/-! The decoder accepts exactly the serializations of values whose offsets fit. -/

namespace Ssz

namespace Schema

/-- The fixed parts of fields take up no more than their least sizes. -/
theorem fixedEnd_le (fields : List Field) : fixedEnd fields ≤ (fieldSizes fields).least := by
  induction fields with
  | nil => exact Nat.le_refl _
  | cons field rest ih =>
    obtain ⟨name, schema⟩ := field
    -- A variable member takes up its offset in the fixed part, and at least that in all.
    have own : schema.fixedPart ≤ schema.sizes.part := by
      simp only [fixedPart, Sizes.fixedPart, Sizes.part]
      cases schema.sizes.fixed with
      | none => exact Nat.le_add_right _ _
      | some size => exact Nat.le_refl _
    rw [fixedEnd, least_fieldSizes_cons]
    exact Nat.add_le_add own ih

/-- Fields that all have one size take up their fixed parts and nothing else. -/
theorem fieldSizes_fixed {fields : List Field}
    (fixed : ∀ field ∈ fields, field.schema.isFixedSize) :
    (fieldSizes fields).fixed = some (fixedEnd fields) := by
  induction fields with
  | nil => rfl
  | cons field rest ih =>
    obtain ⟨name, schema⟩ := field
    obtain ⟨size, own⟩ := Option.isSome_iff_exists.mp (fixed ⟨name, schema⟩ (by simp))
    have later := ih fun other member => fixed other (by simp [member])
    -- All sizes being fixed, none of them ends the sum.
    unfold fixedSize at own
    simp [fieldSizes, Sizes.add, own, later, fixedEnd, fixedPart, Sizes.fixedPart]

end Schema

/-- A span that lies within an input is read as its slice. -/
theorem Span.read_eq_ok {span : Span} {bytes : Bytes} (ordered : span.start ≤ span.stop)
    (inside : span.stop ≤ bytes.length) :
    span.read bytes = .ok (bytes.slice span.start span.stop) := by
  rw [Span.read, if_pos ⟨ordered, inside⟩]

mutual

/-- Every accepted input is the serialization of the value that its tree represents. -/
theorem Schema.decode_sound : (schema : Schema) → schema.Accepted → schema.Sound schema.decode
  | .scalar type, _, bytes, tree, read => by
    simp only [Schema.decode, bind_eq_ok] at read
    obtain ⟨⟨⟩, sized, read⟩ := read
    have sized := (checkLength_eq_ok.mp sized).1 type.byteLength rfl
    -- Only truth values have bytes to be checked, any other spelling just needs its width.
    have spelled : type.Spelled bytes := by
      refine ⟨sized, ?_⟩
      rintro rfl
      simp only [if_true, bind_eq_ok] at read
      obtain ⟨⟨⟩, booleans, _⟩ := read
      exact checkBooleans_eq_ok.mp booleans
    have built : Tree.leafOfBytes bytes = tree := by
      split at read
      · obtain ⟨⟨⟩, _, read⟩ := bind_eq_ok.mp read
        exact Except.ok.inj read
      · exact Except.ok.inj read
    exact ⟨type.decode bytes, ⟨bytes, spelled, rfl, built.symm⟩, Scalar.spelling_decode spelled,
      trivial⟩
  | .vector element length, accepted, bytes, tree, read => by
    simp only [Schema.decode, bind_eq_ok, pure_eq_ok, Except.ok.injEq] at read
    obtain ⟨⟨⟩, _, ⟨content, count⟩, read, rfl⟩ := read
    obtain ⟨elements, checked, _, holds, joined, each, fit⟩ :=
      decodeElements_sound accepted.depth_lt
        (fun count checked => Count.check_exactly.mp checked ▸ Schema.vector_fits element length)
        (Schema.fixedSize_pos element accepted.1) (Schema.decode_sound element accepted.1) read
    exact ⟨.sequence elements, ⟨elements, rfl, Count.check_exactly.mp checked, holds⟩, joined, each,
      fit⟩
  | .list element maxLength, accepted, bytes, tree, read => by
    simp only [Schema.decode, bind_eq_ok, pure_eq_ok, Except.ok.injEq] at read
    obtain ⟨⟨⟩, _, ⟨content, count⟩, read, rfl⟩ := read
    obtain ⟨elements, checked, rfl, holds, joined, each, fit⟩ :=
      decodeElements_sound accepted.depth_lt
        (fun count checked => Schema.list_fits element (Count.check_atMost.mp checked))
        (Schema.fixedSize_pos element accepted.1) (Schema.decode_sound element accepted.1) read
    exact ⟨.sequence elements,
      ⟨elements, content, rfl, Count.check_atMost.mp checked, holds, rfl⟩, joined, each, fit⟩
  | .bitvector length, accepted, bytes, tree, read => by
    simp only [Schema.decode, bind_eq_ok] at read
    obtain ⟨⟨⟩, sized, ⟨⟩, padded, read⟩ := read
    have sized := (checkLength_eq_ok.mp sized).1 _ rfl
    -- The padding was checked to be clear, so the bits account for all of the input.
    have packed := packBits_of_checkPadding sized padded
    have fits := Schema.bitvector_fits length
    rw [Tree.ofDecodedBytes_eq_ok accepted.depth_lt (by omega)] at read
    obtain rfl := Except.ok.inj read
    exact ⟨.bits (bytes.bitsUpTo length.toNat),
      ⟨_, rfl, Bytes.length_bitsUpTo _ _, congrArg (Tree.ofBytes _) packed⟩, packed.symm, trivial⟩
  | .bitlist maxLength, accepted, bytes, tree, read => by
    rw [Schema.decode] at read
    -- The sentinel was found, so the input packs bits and a sentinel.
    obtain ⟨bits, rfl⟩ := marked_of_decodeBitlist read
    rw [decodeBitlist_marked] at read
    split at read
    · cases read
    rename_i bounded
    have bounded := Nat.le_of_not_lt bounded
    have fits := Schema.bitlist_fits bounded
    rw [Tree.ofDecodedBytes_eq_ok accepted.depth_lt (by rw [length_packBits]; omega)] at read
    obtain rfl := Except.ok.inj read
    exact ⟨.bits bits, ⟨bits, rfl, bounded, rfl⟩, rfl, trivial⟩
  | .container fields, accepted, bytes, tree, read => by
    simp only [Schema.decode, bind_eq_ok] at read
    obtain ⟨⟨⟩, sized, spans, cut, nodes, members, read⟩ := read
    -- The length was checked against the fixed parts before anything is cut.
    obtain ⟨exact, least⟩ := checkLength_eq_ok.mp sized
    obtain ⟨pieces, each, slices, fit, joined⟩ := containerSpans_sound cut
      (Nat.le_trans (Schema.fixedEnd_le fields) least)
      (fun fixed => exact _ (Schema.fieldSizes_fixed fixed))
    obtain ⟨values, represents, same, later⟩ :=
      Schema.decodeFields_sound fields accepted.1 pieces spans bytes nodes each slices members
    have fits := Schema.container_fits fields
    rw [← represents.length_eq.2] at fits
    rw [Tree.ofDecoded_eq_ok accepted.depth_lt fits] at read
    obtain rfl := Except.ok.inj read
    exact ⟨.container values, ⟨values, nodes, rfl, represents, rfl⟩,
      (congrArg Piece.assemble same).trans joined, later, same ▸ fit⟩
  | .union variants, accepted, bytes, tree, read => by
    simp only [Schema.decode, bind_eq_ok] at read
    obtain ⟨⟨⟩, _, selector, own, read⟩ := read
    obtain ⟨small, spelled⟩ := readOffset_eq_ok.mp own
    split at read
    · cases read
    rename_i within
    obtain ⟨variant, chosen, read⟩ := bind_eq_ok.mp read
    obtain rfl := Except.ok.inj read
    -- The selector was read from four bytes, so it is the same as a word.
    have word : (UInt32.ofNat selector).toNat = selector := by
      simp only [maxOffset, UInt32.size] at small
      rw [UInt32.toNat_ofNat', Nat.mod_eq_of_lt (by omega)]
    obtain ⟨payload, represents, same, fit⟩ := Schema.decodeVariant_sound variants accepted.1
      selector (bytes.drop bytesPerOffset) variant (Nat.lt_of_not_le within) chosen
    refine ⟨.union (UInt32.ofNat selector) payload,
      ⟨_, payload, variant, rfl, word.symm ▸ represents, rfl⟩, ?_, by
        rw [Schema.OffsetsFit, word]
        exact fit⟩
    rw [Schema.serialize, word, same, ← spelled, List.drop_zero, List.take_append_drop]

/-- The slices of a container are the serializations of the members that its nodes represent. -/
theorem Schema.decodeFields_sound : (fields : List Field) → Schema.AcceptedFields fields →
    (pieces : List Piece) → (spans : List Span) → (bytes : Bytes) → (nodes : List Tree) →
      List.Forall₂ Field.Holds fields pieces → CutInto bytes spans (pieces.map Piece.bytes) →
        Schema.decodeFields fields spans bytes = .ok nodes →
          ∃ members, Schema.RepresentsFields fields members nodes ∧
            Schema.pieces fields members = pieces ∧ Schema.FieldsFit fields members
  | [], _, pieces, spans, bytes, nodes, each, _, read => by
    cases each
    obtain rfl := Except.ok.inj read
    exact ⟨[], trivial, rfl, trivial⟩
  | ⟨_, schema⟩ :: fields, accepted, pieces, spans, bytes, nodes, each, cut, read => by
    cases each with
    | @cons _ piece _ pieces head tail =>
      cases cut with
      | @cons span _ spans _ own rest =>
        obtain ⟨ordered, inside, slice⟩ := own
        simp only [Schema.decodeFields, Span.read_eq_ok ordered inside, slice, ok_bind, bind_eq_ok,
          pure_eq_ok, Except.ok.injEq] at read
        obtain ⟨node, first, others, later, rfl⟩ := read
        obtain ⟨value, inhabits, same, fit⟩ := Schema.decode_sound schema accepted.1 _ _ first
        obtain ⟨members, represents, sameLater, fits⟩ := Schema.decodeFields_sound fields accepted.2
          pieces spans bytes others tail rest later
        refine ⟨value :: members, ⟨inhabits, represents⟩, ?_, fit, fits⟩
        -- The piece of the field is variable or not as its schema says.
        rw [Schema.pieces, sameLater, same]
        have kind : piece.isVariable = !schema.isFixedSize := head.1
        rw [← kind]

/-- The rest of a union is the serialization of the payload that its variant represents. -/
theorem Schema.decodeVariant_sound : (variants : List (Option Schema)) →
    Schema.AcceptedVariants variants → (selector : Nat) → (bytes : Bytes) → (tree : Tree) →
      selector < variants.length → Schema.decodeVariant variants selector bytes = .ok tree →
        ∃ payload, Schema.RepresentsVariant variants selector payload tree ∧
          Schema.serializeVariant variants selector payload = bytes ∧
          Schema.VariantFits variants selector payload
  | some schema :: _, accepted, 0, bytes, tree, _, read => by
    obtain ⟨value, inhabits, same, fit⟩ := Schema.decode_sound schema accepted.1 bytes tree read
    exact ⟨some value, inhabits, same, fit⟩
  | none :: _, _, 0, bytes, tree, _, read => by
    simp only [Schema.decodeVariant] at read
    split at read
    · -- Nothing may follow the selector of the empty variant.
      rename_i empty
      obtain rfl := Except.ok.inj read
      refine ⟨none, ?_, (List.isEmpty_iff.mp empty).symm, trivial⟩
      rw [Tree.leafOfBytes, Chunk.padded_nil]
      rfl
    · cases read
  | some _ :: rest, accepted, selector + 1, bytes, tree, within, read =>
    Schema.decodeVariant_sound rest accepted.2 selector bytes tree (Nat.lt_of_succ_lt_succ within)
      read
  | none :: rest, accepted, selector + 1, bytes, tree, within, read =>
    Schema.decodeVariant_sound rest accepted selector bytes tree (Nat.lt_of_succ_lt_succ within)
      read

end

/-- The members of a container serialize to pieces of its fields. -/
theorem Schema.holds_pieces {fields : List Field} {members : List Value} {nodes : List Tree}
    (represents : Schema.RepresentsFields fields members nodes) :
    List.Forall₂ Field.Holds fields (Schema.pieces fields members) := by
  -- A member fills its field when its width is the fixed size of the field, if there is one.
  induction fields generalizing members nodes with
  | nil =>
    cases members <;> exact .nil
  | cons field fields ih =>
    obtain ⟨name, schema⟩ := field
    match members, nodes, represents with
    | member :: members, node :: nodes, ⟨head, tail⟩ =>
      exact .cons ⟨rfl, (Schema.admits_serialize schema member node head).1⟩ (ih tail)

mutual

/-- The serialization of a value whose offsets fit is decoded into the tree of the value. -/
theorem Schema.decode_complete : (schema : Schema) → schema.Accepted →
    schema.Complete schema.decode
  | .scalar type, _, value, tree, represents, _ => by
    have sized := checkLength_eq_ok.mpr (Schema.admits_serialize _ value tree represents)
    obtain ⟨bytes, spelled, rfl, rfl⟩ := represents
    rw [Schema.serialize, Scalar.spelling_decode spelled] at sized ⊢
    simp only [Schema.decode, sized, ok_bind, pure_eq_ok]
    split
    · rename_i same
      rw [checkBooleans_eq_ok.mpr (spelled.2 same), ok_bind]
    · rfl
  | .vector element length, accepted, value, tree, represents, fit => by
    have admitted := checkLength_eq_ok.mpr (Schema.admits_serialize _ value tree represents)
    obtain ⟨elements, rfl, sized, holds⟩ := represents
    have read := decodeElements_complete accepted.depth_lt
      (sized ▸ Schema.vector_fits element length) (Schema.fixedSize_pos element accepted.1)
      (Schema.decode_complete element accepted.1) (Count.check_exactly.mpr sized) holds fit.1 fit.2
    unfold Schema.elementPieces at read
    rw [Schema.serialize] at admitted ⊢
    simp only [Schema.decode, admitted, ok_bind, read, pure_eq_ok]
  | .list element maxLength, accepted, value, tree, represents, fit => by
    have admitted := checkLength_eq_ok.mpr (Schema.admits_serialize _ value tree represents)
    obtain ⟨elements, content, rfl, bounded, holds, rfl⟩ := represents
    have read := decodeElements_complete accepted.depth_lt (Schema.list_fits element bounded)
      (Schema.fixedSize_pos element accepted.1) (Schema.decode_complete element accepted.1)
      (Count.check_atMost.mpr bounded) holds fit.1 fit.2
    unfold Schema.elementPieces at read
    rw [Schema.serialize] at admitted ⊢
    simp only [Schema.decode, admitted, ok_bind, read, pure_eq_ok]
  | .bitvector length, accepted, value, tree, represents, _ => by
    have admitted := checkLength_eq_ok.mpr (Schema.admits_serialize _ value tree represents)
    obtain ⟨bits, rfl, sized, rfl⟩ := represents
    have fits := Schema.bitvector_fits length
    -- The padding that packing leaves is clear.
    have padded := checkPadding_packBits bits
    rw [sized] at padded
    rw [Schema.serialize] at admitted ⊢
    simp only [Schema.decode, admitted, ok_bind, padded]
    exact Tree.ofDecodedBytes_eq_ok accepted.depth_lt (by rw [length_packBits]; omega)
  | .bitlist maxLength, accepted, value, tree, represents, _ => by
    obtain ⟨bits, rfl, bounded, rfl⟩ := represents
    have fits := Schema.bitlist_fits bounded
    rw [Schema.serialize, Schema.decode, decodeBitlist_marked, if_neg (Nat.not_lt.mpr bounded),
      Tree.ofDecodedBytes_eq_ok accepted.depth_lt (by rw [length_packBits]; omega)]
    rfl
  | .container fields, accepted, value, tree, represents, fit => by
    have admitted := checkLength_eq_ok.mpr (Schema.admits_serialize _ value tree represents)
    obtain ⟨members, nodes, rfl, each, rfl⟩ := represents
    -- The spans cut out just what was assembled for each field.
    obtain ⟨spans, cut, slices⟩ := containerSpans_assemble (Schema.holds_pieces each) fit.2
    have read := Schema.decodeFields_complete fields accepted.1 members nodes spans _ each fit.1
      slices
    have fits := Schema.container_fits fields
    rw [← each.length_eq.2] at fits
    rw [Schema.serialize] at admitted ⊢
    simp only [Schema.decode, admitted, ok_bind, cut, read]
    exact Tree.ofDecoded_eq_ok accepted.depth_lt fits
  | .union variants, accepted, value, tree, represents, fit => by
    have admitted := checkLength_eq_ok.mpr (Schema.admits_serialize _ value tree represents)
    obtain ⟨selector, payload, variant, rfl, chosen, rfl⟩ := represents
    have read := Schema.decodeVariant_complete variants accepted.1 _ payload variant chosen fit
    rw [Schema.serialize] at admitted ⊢
    -- A selector is always within the reach of four bytes.
    have small : selector.toNat ≤ maxOffset := by
      have word := selector.toNat_lt
      simp only [maxOffset, UInt32.size]
      omega
    have own : readOffset (littleEndian bytesPerOffset selector.toNat ++
        Schema.serializeVariant variants selector.toNat payload) 0 = .ok selector.toNat := by
      rw [readOffset_eq_ok]
      exact ⟨small, List.take_left' (littleEndian_length _ _)⟩
    simp only [Schema.decode, admitted, ok_bind, own, if_neg (Nat.not_le.mpr chosen.lt_length),
      List.drop_left' (littleEndian_length _ _), read, UInt32.ofNat_toNat, pure_eq_ok]

/-- The serializations of the members of a container are decoded into their trees. -/
theorem Schema.decodeFields_complete : (fields : List Field) → Schema.AcceptedFields fields →
    (members : List Value) → (nodes : List Tree) → (spans : List Span) → (bytes : Bytes) →
      Schema.RepresentsFields fields members nodes → Schema.FieldsFit fields members →
        CutInto bytes spans ((Schema.pieces fields members).map Piece.bytes) →
          Schema.decodeFields fields spans bytes = .ok nodes
  | [], _, [], [], spans, bytes, _, _, _ => rfl
  | ⟨_, schema⟩ :: fields, accepted, member :: members, node :: nodes, spans, bytes, represents,
      fit, cut => by
    cases cut with
    | @cons span _ spans _ own rest =>
      -- The first slice is the first serialization, and the other slices stay for the other fields.
      obtain ⟨ordered, inside, slice⟩ := own
      have first := Schema.decode_complete schema accepted.1 member node represents.1 fit.1
      have later := Schema.decodeFields_complete fields accepted.2 members nodes spans bytes
        represents.2 fit.2 rest
      simp only [Schema.decodeFields, Span.read_eq_ok ordered inside, slice, ok_bind, first, later,
        pure_eq_ok]

/-- The serialization of the payload of a union is decoded into the tree of its variant. -/
theorem Schema.decodeVariant_complete : (variants : List (Option Schema)) →
    Schema.AcceptedVariants variants → (selector : Nat) → (payload : Option Value) →
      (tree : Tree) → Schema.RepresentsVariant variants selector payload tree →
        Schema.VariantFits variants selector payload →
          Schema.decodeVariant variants selector
            (Schema.serializeVariant variants selector payload) = .ok tree
  | some schema :: _, accepted, 0, some value, tree, represents, fit =>
    Schema.decode_complete schema accepted.1 value tree represents fit
  | none :: _, _, 0, none, tree, represents, _ => by
    -- The variant with no payload has no bytes, and its tree is the zero chunk.
    obtain rfl : tree = .leaf Chunk.zero := represents
    simp [Schema.decodeVariant, Schema.serializeVariant, Tree.leafOfBytes]
  | some _ :: rest, accepted, selector + 1, payload, tree, represents, fit =>
    Schema.decodeVariant_complete rest accepted.2 selector payload tree represents fit
  | none :: rest, accepted, selector + 1, payload, tree, represents, fit =>
    Schema.decodeVariant_complete rest accepted selector payload tree represents fit

end

end Ssz
