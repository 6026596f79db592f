import Ssz.Proofs.Codec.Serialize

/-! Where variable members start in the composites inside a value, and how far that can be. -/

namespace Ssz

mutual

/-- In some composite inside a value, a variable member starts at a distance from its beginning. -/
def Schema.StartsAt : Schema → Value → (start : Nat) → Prop
  | .vector element _, .sequence elements, start | .list element _, .sequence elements, start =>
    (∃ member ∈ elements, element.StartsAt member start) ∨
      start ∈ Piece.starts (Piece.fixedEnd (element.elementPieces elements))
        (element.elementPieces elements)
  | .container fields, .container members, start =>
    Schema.FieldStartsAt fields members start ∨
      start ∈ Piece.starts (Piece.fixedEnd (Schema.pieces fields members))
        (Schema.pieces fields members)
  -- A union has no offsets, but its payload may have some.
  | .union variants, .union selector payload, start =>
    Schema.VariantStartsAt variants selector.toNat payload start
  | _, _, _ => False

/-- A variable member starts at a distance in some composite inside a member of a container. -/
def Schema.FieldStartsAt : List Field → List Value → (start : Nat) → Prop
  | ⟨_, schema⟩ :: fields, member :: members, start =>
    schema.StartsAt member start ∨ Schema.FieldStartsAt fields members start
  | _, _, _ => False

/-- A variable member starts at a distance in some composite inside the payload of a union. -/
def Schema.VariantStartsAt : List (Option Schema) → (selector : Nat) → Option Value →
    (start : Nat) → Prop
  | some schema :: _, 0, some value, start => schema.StartsAt value start
  | _ :: rest, selector + 1, payload, start => Schema.VariantStartsAt rest selector payload start
  | _, _, _, _ => False

end

namespace Piece

variable {pieces : List Piece}

/-- Variable pieces start before the end of what they make up with those in front of them. -/
theorem le_of_mem_starts {position start : Nat} (member : start ∈ starts position pieces) :
    start ≤ position + (back pieces).length := by
  -- Each variable piece moves the next start on by its own bytes.
  induction pieces generalizing position with
  | nil => cases member
  | cons piece rest ih =>
    rw [starts] at member
    rw [back]
    split at member
    · -- The later ones start behind the bytes of this one.
      rename_i behind
      rw [if_pos behind, List.length_append]
      rcases List.mem_cons.mp member with rfl | later
      · exact Nat.le_add_right _ _
      · have bounded := ih later
        omega
    · rename_i inline
      rw [if_neg inline]
      exact ih member

/-- Variable pieces start within the composite. -/
theorem start_le_length {start : Nat} (member : start ∈ starts (fixedEnd pieces) pieces) :
    start ≤ (assemble pieces).length := by
  rw [length_assemble]
  exact le_of_mem_starts member

/-- No piece of a composite is longer than the composite. -/
theorem length_le_assemble {piece : Piece} (member : piece ∈ pieces) :
    piece.bytes.length ≤ (assemble pieces).length := by
  rw [length_assemble]
  -- A piece stands in the fixed part or behind it, whole in either place.
  induction pieces with
  | nil => cases member
  | cons first rest ih =>
    rw [fixedEnd, back, width]
    rcases List.mem_cons.mp member with rfl | later
    · split
      · rw [List.length_append]
        omega
      · omega
    · have bounded := ih later
      split
      · rw [List.length_append]
        omega
      · omega

end Piece

/-- Offsets fit in a sequence when they do in its elements and the elements start in reach. -/
theorem Schema.elementsFit_iff (element : Schema) (elements : List Value)
    (each : ∀ member, element.OffsetsFit member ↔
      ∀ start, element.StartsAt member start → start ≤ maxOffset) :
    ((∀ member ∈ elements, element.OffsetsFit member) ∧
        Piece.OffsetsFit (element.elementPieces elements)) ↔
      ∀ start, ((∃ member ∈ elements, element.StartsAt member start) ∨
        start ∈ Piece.starts (Piece.fixedEnd (element.elementPieces elements))
          (element.elementPieces elements)) → start ≤ maxOffset := by
  simp only [Piece.OffsetsFit, each]
  -- A start lies in one of the elements or in their own layout.
  constructor
  · rintro ⟨inside, own⟩ start (⟨member, among, deeper⟩ | here)
    · exact inside member among start deeper
    · exact own start here
  · intro bounded
    exact ⟨fun member among start deeper => bounded start (.inl ⟨member, among, deeper⟩),
      fun start here => bounded start (.inr here)⟩

mutual

/-- Offsets fit in a value exactly when every variable member inside it starts in their reach. -/
theorem Schema.offsetsFit_iff : (schema : Schema) → (value : Value) →
    (schema.OffsetsFit value ↔ ∀ start, schema.StartsAt value start → start ≤ maxOffset)
  -- What fits and what starts somewhere are told by the same recursion, one member after the other.
  | .vector element length, value => by
    cases value with
    | sequence elements =>
      exact Schema.elementsFit_iff element elements (Schema.offsetsFit_iff element)
    | _ => simp [Schema.OffsetsFit, Schema.StartsAt]
  | .list element maxLength, value => by
    cases value with
    | sequence elements =>
      exact Schema.elementsFit_iff element elements (Schema.offsetsFit_iff element)
    | _ => simp [Schema.OffsetsFit, Schema.StartsAt]
  | .container fields, value => by
    cases value with
    | container members =>
      have inside := Schema.fieldsFit_iff fields members
      simp only [Schema.OffsetsFit, Schema.StartsAt, Piece.OffsetsFit, inside, or_imp, forall_and]
    | _ => simp [Schema.OffsetsFit, Schema.StartsAt]
  | .union variants, value => by
    cases value with
    | union selector payload => exact Schema.variantFits_iff variants selector.toNat payload
    | _ => simp [Schema.OffsetsFit, Schema.StartsAt]
  | .scalar _, _ => by simp [Schema.OffsetsFit, Schema.StartsAt]
  | .bitvector _, _ => by simp [Schema.OffsetsFit, Schema.StartsAt]
  | .bitlist _, _ => by simp [Schema.OffsetsFit, Schema.StartsAt]

/-- Offsets fit in the members of a container exactly when all starts inside them are in reach. -/
theorem Schema.fieldsFit_iff : (fields : List Field) → (members : List Value) →
    (Schema.FieldsFit fields members ↔
      ∀ start, Schema.FieldStartsAt fields members start → start ≤ maxOffset)
  -- A bound on two kinds of starts is a bound on each kind.
  | ⟨_, schema⟩ :: fields, member :: members => by
    have first := Schema.offsetsFit_iff schema member
    have rest := Schema.fieldsFit_iff fields members
    simp only [Schema.FieldsFit, Schema.FieldStartsAt, first, rest, or_imp, forall_and]
  | [], _ => by simp [Schema.FieldsFit, Schema.FieldStartsAt]
  | _ :: _, [] => by simp [Schema.FieldsFit, Schema.FieldStartsAt]

/-- Offsets fit in the payload of a union exactly when all starts inside it are in reach. -/
theorem Schema.variantFits_iff : (variants : List (Option Schema)) → (selector : Nat) →
    (payload : Option Value) →
      (Schema.VariantFits variants selector payload ↔
        ∀ start, Schema.VariantStartsAt variants selector payload start → start ≤ maxOffset)
  -- Only the selected variant has starts, and only where it has a schema and the payload is there.
  | some schema :: _, 0, some value => Schema.offsetsFit_iff schema value
  | some _ :: rest, selector + 1, payload => Schema.variantFits_iff rest selector payload
  | none :: rest, selector + 1, payload => Schema.variantFits_iff rest selector payload
  | some _ :: _, 0, none => by simp [Schema.VariantFits, Schema.VariantStartsAt]
  | none :: _, 0, _ => by simp [Schema.VariantFits, Schema.VariantStartsAt]
  | [], _, _ => by simp [Schema.VariantFits, Schema.VariantStartsAt]

end

/-- No element of a sequence is longer than the sequence. -/
theorem Schema.length_le_elements {element : Schema} {elements : List Value} {member : Value}
    (among : member ∈ elements) :
    (element.serialize member).length ≤
      (Piece.assemble (element.elementPieces elements)).length := by
  have piece : ⟨!element.isFixedSize, element.serialize member⟩ ∈
      element.elementPieces elements := List.mem_map.mpr ⟨member, among, rfl⟩
  exact Piece.length_le_assemble piece

/-- Variable members of a sequence and those inside its elements start within it. -/
theorem Schema.start_le_elements {element : Schema} {elements : List Value} {start : Nat}
    (each : ∀ member, element.StartsAt member start → start ≤ (element.serialize member).length)
    (starts : (∃ member ∈ elements, element.StartsAt member start) ∨
      start ∈ Piece.starts (Piece.fixedEnd (element.elementPieces elements))
        (element.elementPieces elements)) :
    start ≤ (Piece.assemble (element.elementPieces elements)).length := by
  rcases starts with ⟨member, among, deeper⟩ | here
  · exact Nat.le_trans (each member deeper) (Schema.length_le_elements among)
  · exact Piece.start_le_length here

mutual

/-- No variable member inside a value starts beyond the end of the serialization of the value. -/
theorem Schema.start_le_serialize : (schema : Schema) → (value : Value) → (start : Nat) →
    schema.StartsAt value start → start ≤ (schema.serialize value).length
  | .vector element _, .sequence elements, start, starts
  | .list element _, .sequence elements, start, starts =>
    Schema.start_le_elements
      (fun member deeper => Schema.start_le_serialize element member start deeper) starts
  | .container fields, .container members, start, starts => by
    -- A start inside a member is bounded by that member, which is a part of the container.
    rcases starts with deeper | here
    · obtain ⟨piece, among, within⟩ := Schema.start_le_piece fields members start deeper
      exact Nat.le_trans within (Piece.length_le_assemble among)
    · exact Piece.start_le_length here
  | .union variants, .union selector payload, start, starts => by
    have within := Schema.start_le_variant variants selector.toNat payload start starts
    -- The selector only adds to the length.
    rw [Schema.serialize, List.length_append]
    omega

/-- No variable member inside a member of a container starts beyond the end of that member. -/
theorem Schema.start_le_piece : (fields : List Field) → (members : List Value) → (start : Nat) →
    Schema.FieldStartsAt fields members start →
      ∃ piece ∈ Schema.pieces fields members, start ≤ piece.bytes.length
  | ⟨_, schema⟩ :: fields, member :: members, start, starts => by
    rcases starts with first | later
    · exact ⟨_, List.mem_cons_self, Schema.start_le_serialize schema member start first⟩
    · obtain ⟨piece, among, within⟩ := Schema.start_le_piece fields members start later
      exact ⟨piece, List.mem_cons_of_mem _ among, within⟩

/-- No variable member inside the payload of a union starts beyond the end of the payload. -/
theorem Schema.start_le_variant : (variants : List (Option Schema)) → (selector : Nat) →
    (payload : Option Value) → (start : Nat) →
      Schema.VariantStartsAt variants selector payload start →
        start ≤ (Schema.serializeVariant variants selector payload).length
  -- Only the selected variant has starts, and its serialization is all there is.
  | some schema :: _, 0, some value, start, starts =>
    Schema.start_le_serialize schema value start starts
  | some _ :: rest, selector + 1, payload, start, starts =>
    Schema.start_le_variant rest selector payload start starts
  | none :: rest, selector + 1, payload, start, starts =>
    Schema.start_le_variant rest selector payload start starts

end

/-- All offsets fit in a serialization that ends within their reach. -/
theorem Schema.offsetsFit_of_length {schema : Schema} {value : Value}
    (short : (schema.serialize value).length ≤ maxOffset) : schema.OffsetsFit value := by
  rw [Schema.offsetsFit_iff]
  intro start starts
  exact Nat.le_trans (Schema.start_le_serialize schema value start starts) short

end Ssz
