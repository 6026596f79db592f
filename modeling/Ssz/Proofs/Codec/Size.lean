import Ssz.Proofs.Codec.Serialize

/-! Declared sizes: serializations have the fixed size of their type, or at least the least one. -/

namespace Ssz

/-- Whatever a content tree holds is represented by a tree of its own. -/
theorem Tree.HoldsElements.each {element : Schema} {elements : List Value} {depth : Nat}
    {content : Tree} (holds : HoldsElements element element.Represents elements depth content) :
    ∀ member ∈ elements, ∃ node, element.Represents member node := by
  intro member within
  cases own : element.scalar? with
  | some type =>
    obtain rfl := Schema.eq_scalar own
    obtain ⟨pieces, spelled, rfl, _⟩ := (holdsElements_packed own).mp holds
    -- A packed scalar has no tree in the content, but its spelling makes a leaf.
    obtain ⟨piece, inside, rfl⟩ := List.mem_map.mp within
    exact ⟨_, piece, spelled piece inside, rfl, rfl⟩
  | none =>
    obtain ⟨nodes, each, _⟩ := (holdsElements_subtrees own).mp holds
    obtain ⟨i, bound, rfl⟩ := List.getElem_of_mem within
    have also : i < nodes.length := each.length_eq ▸ bound
    exact ⟨nodes[i], each.get bound also⟩

namespace Piece

/-- The bytes that a piece adds to a composite, its offset included. -/
def total (piece : Piece) : Nat :=
  piece.width + if piece.isVariable then piece.bytes.length else 0

/-- One more piece makes a composite longer by its total. -/
theorem length_assemble_cons (piece : Piece) (rest : List Piece) :
    (assemble (piece :: rest)).length = piece.total + (assemble rest).length := by
  simp only [length_assemble, fixedEnd, back, total]
  -- A variable piece adds its offset in front and its bytes behind.
  split
  · rw [List.length_append]
    omega
  · omega

end Piece

namespace Sizes

/-- A number of bytes that the sizes of a type allow for a serialization. -/
def Admits (sizes : Sizes) (length : Nat) : Prop :=
  (∀ size, sizes.fixed = some size → length = size) ∧ sizes.least ≤ length

/-- A number of bytes that the sizes of a type allow a member to add to its parent. -/
def AdmitsPart (sizes : Sizes) (total : Nat) : Prop :=
  (∀ size, sizes.fixed = some size → total = size) ∧ sizes.part ≤ total

variable {sizes others : Sizes}

/-- The sizes of a member and of those after it add up. -/
theorem admits_add {total rest : Nat} (own : sizes.AdmitsPart total) (later : others.Admits rest) :
    (sizes.add others).Admits (total + rest) := by
  obtain ⟨exact, least⟩ := own
  obtain ⟨exactly, atLeast⟩ := later
  -- The sum is exact only where both sizes are.
  cases first : sizes.fixed with
  | none => exact ⟨by simp [add, first], by simpa [add, first] using Nat.add_le_add least atLeast⟩
  | some size =>
    cases second : others.fixed with
    | none =>
      exact ⟨by simp [add, first, second],
        by simpa [add, first, second] using Nat.add_le_add least atLeast⟩
    | some remaining =>
      refine ⟨?_, by simpa [add, first, second] using Nat.add_le_add least atLeast⟩
      intro whole same
      simp only [add, first, second, Option.some.injEq] at same
      rw [exact size first, exactly remaining second, same]

end Sizes

namespace Schema

variable {schema : Schema} {bytes : Bytes}

/-- A piece of a schema has the width that the schema takes up in a fixed part. -/
theorem width_piece (admitted : schema.sizes.Admits bytes.length) :
    Piece.width ⟨!schema.isFixedSize, bytes⟩ = schema.fixedPart := by
  cases own : schema.sizes.fixed with
  | none => simp [Piece.width, isFixedSize, fixedSize, fixedPart, Sizes.fixedPart, own]
  | some size =>
    simp [Piece.width, isFixedSize, fixedSize, fixedPart, Sizes.fixedPart, own,
      admitted.1 size own]

/-- What a piece adds to its composite is what the sizes of its schema allow. -/
theorem admitsPart_total (admitted : schema.sizes.Admits bytes.length) :
    schema.sizes.AdmitsPart (Piece.total ⟨!schema.isFixedSize, bytes⟩) := by
  obtain ⟨exactly, least⟩ := admitted
  cases own : schema.sizes.fixed with
  | none =>
    refine ⟨by simp [own], ?_⟩
    simpa [Piece.total, Piece.width, isFixedSize, fixedSize, Sizes.part, own] using least
  | some size =>
    -- Without an offset the piece adds just its own bytes.
    have sized := exactly size own
    refine ⟨?_, ?_⟩
    · intro whole same
      obtain rfl := Option.some.inj (own.symm.trans same)
      simpa [Piece.total, Piece.width, isFixedSize, fixedSize, own] using sized
    · simpa [Piece.total, Piece.width, isFixedSize, fixedSize, Sizes.part, own] using
        Nat.le_of_eq sized.symm

/-- Elements that each have an allowed size make up a sequence of an allowed size. -/
theorem admits_elements (element : Schema) (elements : List Value)
    (each : ∀ member ∈ elements, element.sizes.Admits (element.serialize member).length) :
    (element.sizes.times elements.length).Admits
      (Piece.assemble (element.elementPieces elements)).length := by
  induction elements with
  | nil =>
    simp [Sizes.Admits, Sizes.times, elementPieces, Piece.fixedEnd, Piece.back]
  | cons member rest ih =>
    obtain ⟨exactly, least⟩ := ih fun other inside => each other (by simp [inside])
    -- One more element adds its part to the size of the rest.
    obtain ⟨own, part⟩ := admitsPart_total (each member (by simp))
    rw [elementPieces, List.map_cons, Piece.length_assemble_cons]
    refine ⟨?_, ?_⟩
    · intro whole same
      obtain ⟨size, fixed, rfl⟩ := Option.map_eq_some_iff.mp same
      have later := exactly (rest.length * size) (by simp [Sizes.times, fixed])
      have first := own size fixed
      unfold elementPieces at later
      rw [later, first, List.length_cons, Nat.add_mul, Nat.one_mul, Nat.add_comm]
    · simp only [Sizes.times, elementPieces, List.length_cons, Nat.add_mul, Nat.one_mul] at least ⊢
      omega

end Schema

mutual

/-- The serialization of a represented value has an allowed size. -/
theorem Schema.admits_serialize : (schema : Schema) → (value : Value) → (tree : Tree) →
    schema.Represents value tree → schema.sizes.Admits (schema.serialize value).length
  | .scalar type, value, tree, represents => by
    obtain ⟨bytes, spelled, rfl, rfl⟩ := represents
    rw [Schema.serialize, Scalar.spelling_decode spelled, spelled.1]
    exact ⟨by simp [Schema.sizes, Sizes.ofFixed], Nat.le_refl _⟩
  | .vector element length, value, tree, represents => by
    obtain ⟨elements, rfl, sized, holds⟩ := represents
    rw [Schema.sizes, ← sized, Schema.serialize]
    -- The elements have allowed sizes one by one, and the length says how many there are.
    apply Schema.admits_elements
    intro member inside
    obtain ⟨node, inhabits⟩ := holds.each member inside
    exact Schema.admits_serialize element member node inhabits
  | .list element maxLength, value, tree, represents =>
    ⟨by simp [Schema.sizes, Sizes.ofLeast], Nat.zero_le _⟩
  | .bitvector length, value, tree, represents => by
    obtain ⟨bits, rfl, sized, rfl⟩ := represents
    simp [Schema.sizes, Sizes.ofFixed, Sizes.Admits, Schema.serialize, sized]
  | .bitlist maxLength, value, tree, represents => by
    obtain ⟨bits, rfl, sized, rfl⟩ := represents
    refine ⟨by simp [Schema.sizes, Sizes.ofLeast], ?_⟩
    simp only [Schema.sizes, Sizes.ofLeast, Schema.serialize, length_packBits, List.length_append,
      List.length_singleton]
    omega
  | .container fields, value, tree, represents => by
    obtain ⟨members, nodes, rfl, each, rfl⟩ := represents
    rw [Schema.sizes, Schema.serialize]
    exact Schema.admits_pieces fields members nodes each
  | .union variants, value, tree, represents => by
    obtain ⟨selector, payload, variant, rfl, chosen, rfl⟩ := represents
    obtain ⟨least, found, below⟩ := Schema.leastVariant_le variants _ payload variant chosen
    refine ⟨by simp [Schema.sizes, Sizes.ofLeast], ?_⟩
    simpa [Schema.sizes, Sizes.ofLeast, Schema.serialize, found] using below

/-- The members of a container serialize to an allowed size together. -/
theorem Schema.admits_pieces : (fields : List Field) → (members : List Value) →
    (nodes : List Tree) → Schema.RepresentsFields fields members nodes →
      (Schema.fieldSizes fields).Admits (Piece.assemble (Schema.pieces fields members)).length
  | [], [], [], _ => by simp [Schema.fieldSizes, Schema.pieces, Sizes.ofFixed, Sizes.Admits,
      Piece.fixedEnd, Piece.back]
  | ⟨_, schema⟩ :: fields, member :: members, node :: nodes, represents => by
    -- The first piece adds its width to that of the layout of the rest.
    have first := Schema.admits_serialize schema member node represents.1
    have rest := Schema.admits_pieces fields members nodes represents.2
    rw [Schema.fieldSizes, Schema.pieces, Piece.length_assemble_cons]
    exact Sizes.admits_add (Schema.admitsPart_total first) rest

/-- The payload of a union takes at least as many bytes as its shortest variant. -/
theorem Schema.leastVariant_le : (variants : List (Option Schema)) → (selector : Nat) →
    (payload : Option Value) → (tree : Tree) →
      Schema.RepresentsVariant variants selector payload tree →
        ∃ least, Schema.leastVariant variants = some least ∧
          least ≤ (Schema.serializeVariant variants selector payload).length
  | some schema :: rest, 0, some value, tree, represents => by
    -- The variant chosen is one of those among which the shortest was looked for.
    have own := (Schema.admits_serialize schema value tree represents).2
    rw [Schema.leastVariant, Schema.serializeVariant]
    cases Schema.leastVariant rest with
    | none => exact ⟨_, rfl, own⟩
    | some least => exact ⟨_, rfl, Nat.le_trans (Nat.min_le_left _ _) own⟩
  | none :: _, _, _, _, _ => ⟨0, rfl, Nat.zero_le _⟩
  | some schema :: rest, selector + 1, payload, tree, represents => by
    obtain ⟨least, found, below⟩ := Schema.leastVariant_le rest selector payload tree represents
    rw [Schema.leastVariant, Schema.serializeVariant, found]
    exact ⟨_, rfl, Nat.le_trans (Nat.min_le_right _ _) below⟩

end

/-- Every element that a content tree holds serializes to an allowed size. -/
theorem Tree.HoldsElements.admitted {element : Schema} {elements : List Value} {depth : Nat}
    {content : Tree} (holds : HoldsElements element element.Represents elements depth content) :
    ∀ member ∈ elements, element.sizes.Admits (element.serialize member).length := by
  intro member inside
  obtain ⟨node, inhabits⟩ := holds.each member inside
  exact Schema.admits_serialize element member node inhabits

namespace Schema

/-- The fixed part of a sequence is as wide as its elements say. -/
theorem fixedEnd_elementPieces {element : Schema} {elements : List Value}
    (each : ∀ member ∈ elements, element.sizes.Admits (element.serialize member).length) :
    Piece.fixedEnd (element.elementPieces elements) = elements.length * element.fixedPart := by
  -- Every element puts its own bytes or one offset into the fixed part.
  induction elements with
  | nil => simp [elementPieces, Piece.fixedEnd]
  | cons member rest ih =>
    have own := width_piece (each member (by simp))
    have later := ih fun other inside => each other (by simp [inside])
    unfold elementPieces at later ⊢
    rw [List.map_cons, Piece.fixedEnd, own, later, List.length_cons, Nat.succ_mul, Nat.add_comm]

/-- The fixed part of a container is as wide as its fields say. -/
theorem fixedEnd_pieces {fields : List Field} {members : List Value} {nodes : List Tree}
    (represents : RepresentsFields fields members nodes) :
    Piece.fixedEnd (pieces fields members) = fixedEnd fields := by
  induction fields generalizing members nodes with
  | nil =>
    cases members <;> rfl
  | cons field fields ih =>
    obtain ⟨name, schema⟩ := field
    -- Each member takes up the width of its own field.
    match members, nodes, represents with
    | member :: members, node :: nodes, ⟨head, tail⟩ =>
      have own := width_piece (admits_serialize schema member node head)
      rw [pieces, Piece.fixedEnd, own, ih tail, fixedEnd]

end Schema

mutual

/-- A fixed size of an accepted schema is not zero. -/
theorem Schema.fixedSize_pos : (schema : Schema) → schema.Accepted → (size : Nat) →
    schema.sizes.fixed = some size → 0 < size
  | .scalar type, _, size, fixed => by
    obtain rfl := Option.some.inj fixed
    exact type.byteLength_pos
  | .vector element length, accepted, size, fixed => by
    obtain ⟨own, known, rfl⟩ := Option.map_eq_some_iff.mp fixed
    -- A vector is accepted with at least one element, and none of its elements is empty.
    have positive := Schema.fixedSize_pos element accepted.1 own known
    have some := Schema.length_pos_of_shape (Schema.check_eq_ok.mp accepted.check).1
    exact Nat.mul_pos some positive
  | .bitvector length, accepted, size, fixed => by
    obtain rfl := Option.some.inj fixed
    have some := Schema.length_pos_of_shape (Schema.check_eq_ok.mp accepted.check).1
    -- A bitvector of at least one bit has at least one byte.
    omega
  | .container fields, accepted, size, fixed => by
    -- A container is accepted with at least one field.
    refine Schema.fieldSizes_pos fields ?_ accepted.1 size fixed
    rintro rfl
    cases (Schema.check_eq_ok.mp accepted.check).1
  | .list _ _, _, _, fixed => by cases fixed
  | .bitlist _, _, _, fixed => by cases fixed
  | .union _, _, _, fixed => by cases fixed

/-- Fixed sizes of accepted fields do not add up to zero. -/
theorem Schema.fieldSizes_pos : (fields : List Field) → fields ≠ [] →
    Schema.AcceptedFields fields → (size : Nat) →
      (Schema.fieldSizes fields).fixed = some size → 0 < size
  | [], nonempty, _, _, _ => absurd rfl nonempty
  | ⟨_, schema⟩ :: fields, _, accepted, size, fixed => by
    cases own : schema.sizes.fixed with
    -- A single field of varying size makes the whole vary.
    | none => simp [Schema.fieldSizes, Sizes.add, own] at fixed
    | some first =>
      have positive := Schema.fixedSize_pos schema accepted.1 first own
      cases later : (Schema.fieldSizes fields).fixed with
      | none => simp [Schema.fieldSizes, Sizes.add, own, later] at fixed
      | some rest =>
        simp only [Schema.fieldSizes, Sizes.add, own, later, Option.some.injEq] at fixed
        omega

end

end Ssz
