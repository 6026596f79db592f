import Ssz.Proofs.Value.Tree
import Ssz.Value.Default

/-! The default tree of an accepted schema represents its default value, which is all zeros. -/

namespace Ssz

/-- The zero of a scalar type, false for truth values. -/
def Scalar.zero : Scalar → Value
  | .boolean => .bool false
  | .uint256 => .uint256 Chunk.zero
  | _ => .uint 0

mutual

/-- The default value of a schema: zeros, no list elements, and the first variant of a union. -/
def Schema.defaultValue : Schema → Value
  | .scalar type => type.zero
  | .vector element length => .sequence (List.replicate length.toNat element.defaultValue)
  -- Sequences of varying length start empty, and unions with their first variant.
  | .list _ _ => .sequence []
  | .bitvector length => .bits (List.replicate length.toNat false)
  | .bitlist _ => .bits []
  | .container fields => .container (Schema.defaultValues fields)
  | .union variants => .union 0 (Schema.defaultPayload variants)

/-- The default values of fields. -/
def Schema.defaultValues : List Field → List Value
  | [] => []
  | ⟨_, schema⟩ :: fields => schema.defaultValue :: Schema.defaultValues fields

/-- The default value of the first variant, none where that is the empty variant. -/
def Schema.defaultPayload : List (Option Schema) → Option Value
  | some schema :: _ => some schema.defaultValue
  | _ => none

end

/-- Zero bytes spell the zero of every scalar type. -/
theorem Scalar.spelled_zeros (type : Scalar) :
    type.Spelled (List.replicate type.byteLength 0) := by
  refine ⟨by simp, ?_⟩
  -- Zero is a truth value too.
  intro _ byte member
  rw [List.eq_of_mem_replicate member]
  decide

/-- Zero bytes are read as the zero of a scalar type. -/
theorem Scalar.decode_zeros (type : Scalar) :
    type.decode (List.replicate type.byteLength 0) = type.zero := by
  cases type <;> rfl

/-- A window on zero bytes is zero. -/
theorem Chunk.window_zeros (count index : Nat) :
    Chunk.window (List.replicate count 0) index = Chunk.zero := by
  apply Vector.ext
  intro i within
  simp only [Chunk.getElem_window, Chunk.getElem_zero, List.getD_eq_getElem?_getD,
    List.getElem?_replicate]
  -- Inside the bytes and behind them there is nothing but zeros.
  split <;> rfl

/-- Clear bits pack into zero bytes. -/
theorem packBits_zeros (count : Nat) :
    packBits (List.replicate count false) = List.replicate ((count + 7) / 8) 0 := by
  symm
  -- Every bit of a zero byte is clear, and so is every bit past the end.
  rw [eq_packBits_iff]
  refine ⟨by simp, ?_⟩
  intro i
  simp only [Bytes.bitAt, List.getD_eq_getElem?_getD, List.getElem?_replicate]
  split <;> split <;> simp

namespace Tree

/-- The full tree of zero bytes is the zero subtree. -/
theorem ofBytes_zeros (depth count : Nat) :
    ofBytes depth (List.replicate count 0) = zero depth := by
  simp only [ofBytes, Chunk.window_zeros, zero_eq_full]

/-- A zero subtree holds no elements. -/
theorem holdsElements_nil (element : Schema) (represents : Value → Tree → Prop) (depth : Nat) :
    HoldsElements element represents [] depth (zero depth) := by
  -- Neither leaves nor subtrees are used when there are no elements.
  cases own : element.scalar? with
  | some type =>
    exact (holdsElements_packed own).mpr ⟨[], by simp, rfl, (ofBytes_zeros depth 0).symm⟩
  | none =>
    exact (holdsElements_subtrees own).mpr ⟨[], .nil, (ofNodes_nil depth).symm⟩

/-- A zero subtree holds any number of zeros of a packed type. -/
theorem holdsElements_zeros {element : Schema} {type : Scalar}
    (packed : element.scalar? = some type) (represents : Value → Tree → Prop) (count depth : Nat) :
    HoldsElements element represents (List.replicate count type.zero) depth (zero depth) := by
  refine (holdsElements_packed packed).mpr
    ⟨List.replicate count (List.replicate type.byteLength 0), ?_, by simp [type.decode_zeros], ?_⟩
  · intro piece member
    rw [List.eq_of_mem_replicate member]
    exact type.spelled_zeros
  · -- Joined zeros are zeros, however many of them there are.
    rw [List.flatten_replicate_replicate, ofBytes_zeros]

end Tree

namespace Schema

/-- A union that passes its checks has a first variant. -/
theorem ne_nil_of_accepted {variants : List (Option Schema)}
    (accepted : (Schema.union variants).Accepted) : variants ≠ [] :=
  (variants_of_shape (check_eq_ok.mp accepted.2).1).1

/-- As many copies as a vector has elements that are no scalars fill its content tree. -/
theorem Accepted.replicate_eq_ok {element : Schema} {length : UInt64}
    (accepted : (vector element length).Accepted) (own : element.scalar? = none) (node : Tree) :
    Tree.replicate node length (vector element length).depth =
      .ok (Tree.ofNodes (vector element length).depth (List.replicate length.toNat node)) := by
  apply Tree.replicate_eq_ok node accepted.depth_lt
  -- Each of these elements owns a chunk, and the depth is chosen for that many.
  simpa [elementChunks, own] using vector_fits element length

end Schema

mutual

/-- The default tree represents the default value. -/
theorem Schema.represents_default : (schema : Schema) → schema.Accepted →
    schema.Represents schema.defaultValue schema.defaultTree
  | .scalar type, _ => by
    refine ⟨_, type.spelled_zeros, type.decode_zeros.symm, ?_⟩
    rw [Schema.defaultTree, Tree.leafOfBytes, Chunk.padded_eq_window, Chunk.window_zeros]
    exact Tree.zero_zero
  | .vector element length, accepted => by
    have each := Schema.represents_default element accepted.1
    refine ⟨_, rfl, by simp, ?_⟩
    -- A vector of scalars is one zero subtree, any other one copies the default element.
    cases own : element.scalar? with
    | some type =>
      rw [Schema.defaultTree, own]
      obtain rfl := Schema.eq_scalar own
      exact Tree.holdsElements_zeros rfl _ _ _
    | none =>
      rw [Schema.defaultTree, own]
      simp only [accepted.replicate_eq_ok own]
      refine (Tree.holdsElements_subtrees own).mpr ⟨_, ?_, rfl⟩
      -- All copies are the same tree, which represents the same value.
      exact List.forall₂_iff_get.mpr ⟨by simp, by simpa using fun _ _ => each⟩
  | .list element _, _ =>
    ⟨[], _, rfl, Nat.zero_le _, Tree.holdsElements_nil element _ _, rfl⟩
  | .bitvector length, _ => by
    refine ⟨_, rfl, by simp, ?_⟩
    rw [packBits_zeros, Tree.ofBytes_zeros, Schema.defaultTree]
  | .bitlist maxLength, _ => by
    refine ⟨[], rfl, Nat.zero_le _, ?_⟩
    -- A list without bits has a zero subtree, like one of zero bits.
    have empty := Tree.ofBytes_zeros (Schema.bitlist maxLength).depth 0
    rw [packBits, Schema.defaultTree]
    exact congrArg (Tree.withLength · 0) empty.symm
  | .container fields, accepted => by
    have each := Schema.represents_defaults fields accepted.1
    have fits := Schema.container_fits fields
    rw [← each.length_eq.2] at fits
    refine ⟨_, _, rfl, each, ?_⟩
    rw [Schema.defaultTree, Tree.fill_eq_ok accepted.depth_lt fits]
    rfl
  | .union variants, accepted => by
    -- The first variant is chosen, with its default value if it has one.
    refine ⟨0, _, _, rfl, ?_, rfl⟩
    cases variants with
    | nil => exact absurd rfl (Schema.ne_nil_of_accepted accepted)
    | cons variant rest =>
      cases variant with
      | none => exact Tree.zero_zero
      | some schema => exact Schema.represents_default schema accepted.1.1

/-- The default trees of fields represent their default values. -/
theorem Schema.represents_defaults : (fields : List Field) → Schema.AcceptedFields fields →
    Schema.RepresentsFields fields (Schema.defaultValues fields) (Schema.defaultTrees fields)
  | [], _ => trivial
  | ⟨_, schema⟩ :: fields, accepted =>
    ⟨Schema.represents_default schema accepted.1, Schema.represents_defaults fields accepted.2⟩

end

end Ssz
