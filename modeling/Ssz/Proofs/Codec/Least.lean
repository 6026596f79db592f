import Mathlib.Order.Bounds.Defs
import Ssz.Proofs.Codec.Size
import Ssz.Proofs.Schema.Overflow
import Ssz.Proofs.Value.Default

/-! Least sizes are those of shortest serializations, also where a schema is too large for words. -/

namespace Ssz

namespace Tree

/-- Copies of one element are held by some content tree. -/
theorem exists_holdsElements_replicate {element : Schema} {value : Value} {node : Tree}
    (represents : element.Represents value node) (count depth : Nat) :
    ∃ content, HoldsElements element element.Represents (List.replicate count value) depth
      content := by
  -- Scalars are packed from copies of their bytes, and other elements are copies of the node.
  cases own : element.scalar? with
  | some type =>
    obtain rfl := Schema.eq_scalar own
    obtain ⟨bytes, spelled, rfl, _⟩ := represents
    refine ⟨_, (holdsElements_packed own).mpr ⟨List.replicate count bytes, ?_, by simp, rfl⟩⟩
    intro piece member
    rwa [List.eq_of_mem_replicate member]
  | none =>
    refine ⟨_, (holdsElements_subtrees own).mpr ⟨List.replicate count node, ?_, rfl⟩⟩
    exact List.forall₂_iff_get.mpr ⟨by simp, by simpa using fun _ _ => represents⟩

end Tree

namespace Schema

variable {schema : Schema} {bytes : Bytes}

/-- A piece as short as its schema allows adds the least part of that schema. -/
theorem total_of_least (least : bytes.length = schema.minSize) :
    Piece.total ⟨!schema.isFixedSize, bytes⟩ = schema.minPart := by
  -- Without a fixed size the piece has an offset besides, which the least part counts too.
  cases own : schema.sizes.fixed with
  | none =>
    simpa [Piece.total, Piece.width, isFixedSize, fixedSize, minPart, Sizes.part, own,
      minSize] using least
  | some size =>
    have same : bytes.length = size := least.trans (least_eq_fixed schema size own)
    simp [Piece.total, Piece.width, isFixedSize, fixedSize, minPart, Sizes.part, own, same]

/-- Copies of an element as short as possible make up the least size of as many elements. -/
theorem length_elementPieces_replicate {element : Schema} {value : Value}
    (least : (element.serialize value).length = element.minSize) (count : Nat) :
    (Piece.assemble (element.elementPieces (List.replicate count value))).length =
      count * element.minPart := by
  -- Each further copy adds its own width and what it has behind the offsets.
  induction count with
  | zero => simp [elementPieces, Piece.fixedEnd, Piece.back]
  | succ count ih =>
    unfold elementPieces at ih ⊢
    rw [List.replicate_succ, List.map_cons, Piece.length_assemble_cons, ih, total_of_least least,
      Nat.succ_mul, Nat.add_comm]

/-- The members of an accepted schema are accepted, and its shape is. -/
theorem Accepted.members {schema : Schema} (accepted : schema.Accepted) :
    schema.MembersAccepted ∧ schema.checkShape = .ok () :=
  ⟨(accepted_iff.mp accepted).1, (check_eq_ok.mp accepted.check).1⟩

end Schema

mutual

/-- Some value of a schema has a serialization of the least size. -/
theorem Schema.exists_least : (schema : Schema) →
    schema.MembersAccepted ∧ schema.checkShape = .ok () → ∃ value tree,
      schema.Represents value tree ∧ (schema.serialize value).length = schema.minSize
  | .scalar type, _ => by
    have spelled := type.spelled_zeros
    refine ⟨_, _, ⟨_, spelled, rfl, rfl⟩, ?_⟩
    rw [Schema.serialize, Scalar.spelling_decode spelled, spelled.1]
    rfl
  | .vector element length, ⟨accepted, _⟩ => by
    -- A shortest vector repeats a shortest element.
    obtain ⟨value, node, represents, least⟩ :=
      Schema.exists_least element (Schema.Accepted.members accepted)
    obtain ⟨content, holds⟩ := Tree.exists_holdsElements_replicate represents length.toNat
      (Schema.vector element length).depth
    refine ⟨_, content, ⟨_, rfl, by simp, holds⟩, ?_⟩
    rw [Schema.serialize]
    exact Schema.length_elementPieces_replicate least length.toNat
  | .list element _, _ => by
    refine ⟨_, _, ⟨[], _, rfl, Nat.zero_le _, Tree.holdsElements_nil element _ _, rfl⟩, ?_⟩
    simp [Schema.serialize, Piece.fixedEnd, Piece.back, Schema.minSize, Schema.sizes,
      Sizes.ofLeast]
  | .bitvector length, _ => by
    refine ⟨_, _, ⟨List.replicate length.toNat false, rfl, by simp, rfl⟩, ?_⟩
    simp [Schema.serialize, Schema.minSize, Schema.sizes, Sizes.ofFixed]
  | .bitlist maxLength, _ => by
    refine ⟨_, _, ⟨[], rfl, Nat.zero_le _, rfl⟩, ?_⟩
    simp [Schema.serialize, Schema.minSize, Schema.sizes, Sizes.ofLeast]
  | .container fields, ⟨members, _⟩ => by
    obtain ⟨values, nodes, represents, least⟩ := Schema.exists_least_fields fields members
    exact ⟨_, _, ⟨values, nodes, rfl, represents, rfl⟩, by rwa [Schema.serialize]⟩
  | .union variants, ⟨members, shape⟩ => by
    obtain ⟨nonempty, bounded⟩ := Schema.variants_of_shape shape
    obtain ⟨selector, payload, node, within, represents, least⟩ :=
      Schema.exists_least_variant variants members nonempty
    -- There are few enough variants for the selector to be kept in its four bytes.
    have word : (UInt32.ofNat selector).toNat = selector := by
      simp only [maxUnionVariants] at bounded
      rw [UInt32.toNat_ofNat', Nat.mod_eq_of_lt (by omega)]
    refine ⟨_, _, ⟨UInt32.ofNat selector, payload, node, rfl, word.symm ▸ represents, rfl⟩, ?_⟩
    simp only [Schema.serialize, word, List.length_append, littleEndian_length, least]
    rfl

/-- Some values of fields have serializations that take up the least size together. -/
theorem Schema.exists_least_fields : (fields : List Field) → Schema.AcceptedFields fields →
    ∃ members nodes, Schema.RepresentsFields fields members nodes ∧
      (Piece.assemble (Schema.pieces fields members)).length = (Schema.fieldSizes fields).least
  | [], _ => ⟨[], [], trivial, by simp [Schema.pieces, Piece.fixedEnd, Piece.back,
      Schema.fieldSizes, Sizes.ofFixed]⟩
  | ⟨name, schema⟩ :: fields, accepted => by
    obtain ⟨value, node, represents, least⟩ :=
      Schema.exists_least schema accepted.1.members
    obtain ⟨members, nodes, later, rest⟩ := Schema.exists_least_fields fields accepted.2
    refine ⟨value :: members, node :: nodes, ⟨represents, later⟩, ?_⟩
    rw [Schema.pieces, Piece.length_assemble_cons, rest, Schema.total_of_least least,
      Schema.least_fieldSizes_cons]

/-- Some variant of a union has a payload of the least size of all variants. -/
theorem Schema.exists_least_variant : (variants : List (Option Schema)) →
    Schema.AcceptedVariants variants → variants ≠ [] → ∃ selector payload tree,
      selector < variants.length ∧ Schema.RepresentsVariant variants selector payload tree ∧
        (Schema.serializeVariant variants selector payload).length =
          (Schema.leastVariant variants).getD 0
  | [], _, nonempty => absurd rfl nonempty
  | none :: _, _, _ => ⟨0, none, _, Nat.zero_lt_succ _, rfl, rfl⟩
  | [some schema], accepted, _ => by
    obtain ⟨value, node, represents, least⟩ :=
      Schema.exists_least schema accepted.1.members
    exact ⟨0, some value, node, Nat.zero_lt_succ _, represents, least⟩
  | some schema :: next :: rest, accepted, _ => by
    obtain ⟨value, node, represents, own⟩ :=
      Schema.exists_least schema accepted.1.members
    obtain ⟨selector, payload, tree, within, chosen, least⟩ :=
      Schema.exists_least_variant (next :: rest) accepted.2 (List.cons_ne_nil _ _)
    rw [Schema.leastVariant]
    cases found : Schema.leastVariant (next :: rest) with
    | none => exact ⟨0, some value, node, Nat.zero_lt_succ _, represents, own⟩
    | some others =>
      rw [found, Option.getD_some] at least
      -- Either this variant is as short as any other, or one of the others is shorter.
      by_cases shorter : schema.sizes.least ≤ others
      · refine ⟨0, some value, node, Nat.zero_lt_succ _, represents, ?_⟩
        rw [Option.getD_some, Nat.min_eq_left shorter]
        exact own
      · refine ⟨selector + 1, payload, tree, Nat.succ_lt_succ within, chosen, ?_⟩
        rw [Option.getD_some, Nat.min_eq_right (Nat.le_of_not_le shorter)]
        exact least

end

namespace Schema

/-- The least size of a schema is the least number of bytes that serialize one of its values. -/
theorem isLeast_minSize {schema : Schema} (members : schema.MembersAccepted)
    (shape : schema.checkShape = .ok ()) :
    IsLeast {length | ∃ value tree, schema.Represents value tree ∧
      (schema.serialize value).length = length} schema.minSize := by
  refine ⟨exists_least schema ⟨members, shape⟩, ?_⟩
  rintro length ⟨value, tree, represents, rfl⟩
  exact (admits_serialize schema value tree represents).2

/--
A schema of accepted members is accepted exactly as its least size says, which is that of its
shortest serialization, and of all of them where it is fixed: within a word it is accepted, and
beyond that it is refused as too large, unless an offset or a selector leaves the word unchecked.
-/
theorem accept_of_sizes {schema : Schema} (members : schema.MembersAccepted)
    (shape : schema.checkShape = .ok ()) (capacity : schema.checkCapacity = .ok ()) :
    IsLeast {length | ∃ value tree, schema.Represents value tree ∧
      (schema.serialize value).length = length} schema.minSize ∧
    (∀ size, schema.fixedSize = some size → ∀ value tree, schema.Represents value tree →
      (schema.serialize value).length = size) ∧
    (schema.minSize ≤ maxWord → schema.accept = .ok schema) ∧
    (maxWord < schema.minSize → ¬ schema.OffsetOverflows →
      schema.accept = .error .sizeOverflow) ∧
    (schema.OffsetOverflows → maxWord < schema.minSize ∧
      ∃ size, maxWord < size ∧ schema.accept = .error (.limit (.sizeTooLarge size))) := by
  -- Two of the three checks pass, so the third one decides.
  have decided : schema.accept = schema.checkSize >>= fun _ => .ok schema := by
    simp only [accept, check, shape, capacity, ok_bind, pure_eq_ok]
  rw [decided]
  have fixed (size : Nat) (own : schema.fixedSize = some size) (value : Value) (tree : Tree)
      (represents : schema.Represents value tree) : (schema.serialize value).length = size :=
    (admits_serialize schema value tree represents).1 size own
  refine ⟨isLeast_minSize members shape, fixed, fun word => ?_, fun large offsets => ?_,
    fun offset => ?_⟩
  · rw [(checkSize_eq_ok shape).mpr word, ok_bind]
  · rw [checkSize_of_total members large offsets, error_bind]
  · obtain ⟨size, large, refused⟩ := checkSize_of_offset members offset
    refine ⟨Nat.lt_of_not_le fun word => ?_, size, large, by rw [refused, error_bind]⟩
    rw [(checkSize_eq_ok shape).mpr word] at refused
    cases refused

/-- One more element takes a vector of lists, which are reached by offsets, beyond a word. -/
theorem accept_of_sizes_vector :
    (vector (list (scalar .uint8) 4) 0x3fffffffffffffff).accept =
        .ok (vector (list (scalar .uint8) 4) 0x3fffffffffffffff) ∧
      (vector (list (scalar .uint8) 4) 0x4000000000000000).accept = .error .sizeOverflow := by
  -- Each list takes four bytes at least, its offset, so the quarter of a word is the limit.
  obtain ⟨_, _, accepted, _, _⟩ :=
    @accept_of_sizes (vector (list (scalar .uint8) 4) 0x3fffffffffffffff) ⟨trivial, rfl⟩ rfl rfl
  obtain ⟨_, _, _, refused, _⟩ :=
    @accept_of_sizes (vector (list (scalar .uint8) 4) 0x4000000000000000) ⟨trivial, rfl⟩ rfl rfl
  refine ⟨accepted (by decide), refused (by decide) ?_⟩
  rintro ⟨_, large⟩
  exact absurd large (by decide)

/-- The selector of a union over the longest byte strings leaves a word without being checked. -/
theorem selector_unchecked :
    (union [some (vector (scalar .uint8) 0xffffffffffffffff)]).MembersAccepted ∧
      (union [some (vector (scalar .uint8) 0xffffffffffffffff)]).checkShape = .ok () ∧
      (union [some (vector (scalar .uint8) 0xffffffffffffffff)]).checkCapacity = .ok () ∧
      maxWord < (union [some (vector (scalar .uint8) 0xffffffffffffffff)]).minSize ∧
      (union [some (vector (scalar .uint8) 0xffffffffffffffff)]).accept ≠ .error .sizeOverflow := by
  refine ⟨⟨⟨trivial, rfl⟩, trivial⟩, rfl, rfl, by decide, ?_⟩
  intro refused
  cases refused

end Schema

end Ssz
