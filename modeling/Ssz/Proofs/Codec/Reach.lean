import Ssz.Proofs.Codec.Bits
import Ssz.Proofs.Codec.Size
import Ssz.Proofs.Codec.Starts
import Ssz.Proofs.Codec.Traced

/-! What ends the encoder on a canonical tree: nothing but a start that no offset reaches. -/

namespace Ssz

open Traced

namespace Traced

variable {α β : Type} {traced : Traced α} {result : α} {starts others : Nat → Prop}

/-- An encoder ends with a result when all starts are within reach, and else at one that is not. -/
def Ends (traced : Traced α) (result : α) (starts : Nat → Prop) : Prop :=
  ((∀ start, starts start → start ≤ maxOffset) ∧ traced = .ok result) ∨
    ∃ start, starts start ∧ maxOffset < start ∧ traced = .error (.tooFar start)

namespace Ends

/-- Two steps end at the starts of both. -/
theorem bind {next : α → Traced β} {value : β} (first : Ends traced result starts)
    (later : Ends (next result) value others) :
    Ends (traced >>= next) value fun start => starts start ∨ others start := by
  -- The first step that meets a start out of reach is the last one.
  rcases first with ⟨fit, rfl⟩ | ⟨start, within, far, rfl⟩
  · rcases later with ⟨also, ended⟩ | ⟨start, within, far, ended⟩
    · refine .inl ⟨?_, ended⟩
      intro start either
      exact either.elim (fit start) (also start)
    · exact .inr ⟨start, .inr within, far, ended⟩
  · exact .inr ⟨start, .inl within, far, rfl⟩

/-- What is made of a result without a further step ends at the same starts. -/
theorem map {next : α → Traced β} {value : β} (first : Ends traced result starts)
    (same : next result = .ok value) : Ends (traced >>= next) value starts := by
  rcases first with ⟨fit, rfl⟩ | ⟨start, within, far, rfl⟩
  · exact .inl ⟨fit, same⟩
  · exact .inr ⟨start, within, far, rfl⟩

/-- Starts within reach can be added to those that an encoder ends at. -/
theorem widen (known : Ends traced result starts) (kept : ∀ start, starts start → others start)
    (added : ∀ start, others start → starts start ∨ start ≤ maxOffset) :
    Ends traced result others := by
  rcases known with ⟨fit, ended⟩ | ⟨start, within, far, ended⟩
  · refine .inl ⟨?_, ended⟩
    intro start other
    exact (added start other).elim (fit start) id
  · exact .inr ⟨start, kept start within, far, ended⟩

end Ends

/-- A size up to the greatest word is one. -/
theorem word_of_le {size : Nat} (small : size ≤ maxWord) : word size = .ok size :=
  if_pos small

/-- A length within the limit passes its check. -/
theorem checkLimit_of_le {length : Nat} {max : UInt64} (bounded : length ≤ max.toNat) :
    checkLimit (UInt64.ofNat length) max = .ok () :=
  if_neg (not_lt_ofNat_of_le_word bounded)

/-- The sentinel after packed bits has a byte to stand in. -/
theorem mark_packBits (bits : List Bool) :
    mark (packBits bits) bits.length = .ok (packBits (bits ++ [true])) := by
  -- Full bytes get a new one for the sentinel, and a byte that is not full has room for it.
  have room : bits.length / 8 <
      (if bits.length % 8 = 0 then packBits bits ++ [0] else packBits bits).length := by
    split
    · rw [List.length_append, length_packBits, List.length_singleton]
      omega
    · rw [length_packBits]
      omega
  rw [mark, if_pos room, markEnd_packBits]

/-- Parts that end with the bytes of pieces, unless a start inside one of them is out of reach. -/
inductive Gathers : List Part → List Piece → (Nat → Prop) → Prop where
  | nil : Gathers [] [] fun _ => False
  | cons {part piece parts pieces own later} (kind : part.isVariable = piece.isVariable)
      (ends : Ends part.bytes piece.bytes own) (rest : Gathers parts pieces later) :
      Gathers (part :: parts) (piece :: pieces) fun start => own start ∨ later start

section Layout

variable {parts : List Part} {pieces : List Piece} {inside : Nat → Prop}

/-- Parts are laid out unless a start inside them or one of their own is out of reach. -/
theorem ends_layOut (gathered : Gathers parts pieces inside) {position : Nat}
    (small : position + (Piece.back pieces).length ≤ maxWord) :
    Ends (layOut position parts) (Piece.front position pieces, Piece.back pieces)
      fun start => inside start ∨ start ∈ Piece.starts position pieces := by
  -- The position is moved on by what was encoded, so it stays general.
  induction gathered generalizing position with
  | nil =>
    refine .inl ⟨?_, rfl⟩
    rintro start (⟨⟨⟩⟩ | ⟨⟨⟩⟩)
  | @cons part piece parts pieces own later kind ends rest ih =>
    rw [layOut, Piece.front, Piece.back, Piece.starts, kind]
    rw [Piece.back] at small
    cases placed : piece.isVariable with
    | true =>
      rw [placed, if_pos rfl, List.length_append] at small
      simp only [if_true, word_of_le (show position ≤ maxWord by omega), ok_bind]
      by_cases far : maxOffset < position
      · -- The start of this part is the first one out of reach.
        rw [if_pos far]
        exact .inr ⟨position, .inr List.mem_cons_self, far, rfl⟩
      · rw [if_neg far]
        have behind := @ih (position + piece.bytes.length) (by omega)
        refine (ends.bind (behind.map ?_)).widen ?_ ?_
        · rfl
        · rintro start (first | deeper | own)
          · exact .inl (.inl first)
          · exact .inl (.inr deeper)
          · exact .inr (List.mem_cons_of_mem _ own)
        · rintro start ((first | deeper) | own)
          · exact .inl (.inl first)
          · exact .inl (.inr (.inl deeper))
          · rcases List.mem_cons.mp own with rfl | own
            · exact .inr (Nat.le_of_not_lt far)
            · exact .inl (.inr (.inr own))
    | false =>
      -- A part in place has no start of its own.
      rw [placed, if_neg (by decide)] at small
      simp only [Bool.false_eq_true, if_false]
      refine (ends.bind ((ih small).map ?_)).widen ?_ ?_
      · rfl
      · rintro start (first | deeper | own)
        · exact .inl (.inl first)
        · exact .inl (.inr deeper)
        · exact .inr own
      · rintro start ((first | deeper) | own)
        · exact .inl (.inl first)
        · exact .inl (.inr (.inl deeper))
        · exact .inl (.inr (.inr own))

/-- A composite is joined unless a start inside it or in its own layout is out of reach. -/
theorem ends_join (gathered : Gathers parts pieces inside) {fixedSize : Nat}
    (sized : Piece.fixedEnd pieces = fixedSize)
    (small : (Piece.assemble pieces).length ≤ maxWord) :
    Ends (join fixedSize parts) (Piece.assemble pieces)
      fun start => inside start ∨ start ∈ Piece.starts (Piece.fixedEnd pieces) pieces := by
  subst sized
  rw [Piece.length_assemble] at small
  -- The fixed part and all starts behind it lie within the composite.
  rw [join, word_of_le (by omega), ok_bind]
  exact (ends_layOut gathered small).map rfl

end Layout

/-- What is known of traces of canonical trees of a schema, as far as words count their bytes. -/
def Settles (element : Schema) (trace : Tree → Traced Bytes) : Prop :=
  ∀ (value : Value) (tree : Tree), element.Represents value tree →
    (element.serialize value).length ≤ maxWord →
      Ends (trace tree) (element.serialize value) (element.StartsAt value)

section Elements

variable {element : Schema} {trace : Tree → Traced Bytes} {elements : List Value}

/-- The nodes of elements gather their pieces. -/
theorem gathers_elements (settles : Settles element trace) {nodes : List Tree}
    (each : List.Forall₂ element.Represents elements nodes)
    (small : ∀ member ∈ elements, (element.serialize member).length ≤ maxWord) :
    Gathers (nodes.map fun node => ⟨!element.isFixedSize, trace node⟩)
      (element.elementPieces elements)
      fun start => ∃ member ∈ elements, element.StartsAt member start := by
  -- A start inside some element is one inside the first or inside one of the others.
  induction each with
  | nil =>
    have none : (fun start => ∃ member ∈ ([] : List Value), element.StartsAt member start) =
        fun _ => False := by simp
    rw [none]
    exact .nil
  | @cons member node members nodes head _ ih =>
    obtain ⟨first, later⟩ := List.forall_mem_cons.mp small
    have split : (fun start => ∃ other ∈ member :: members, element.StartsAt other start) =
        fun start => element.StartsAt member start ∨
          ∃ other ∈ members, element.StartsAt other start := by simp
    rw [split]
    exact .cons rfl (settles member node head first) (ih later)

/-- A content tree is encoded unless a start among its elements or inside one is out of reach. -/
theorem ends_elements (settles : Settles element trace) {depth : Nat} {content : Tree}
    {length : UInt64} (shallow : depth < 64)
    (fits : element.elementChunks elements.length ≤ 2 ^ depth)
    (sized : elements.length = length.toNat)
    (holds : Tree.HoldsElements element element.Represents elements depth content)
    (small : (Piece.assemble (element.elementPieces elements)).length ≤ maxWord) :
    Ends (Traced.elements element trace content depth length)
      (Piece.assemble (element.elementPieces elements))
      fun start => (∃ member ∈ elements, element.StartsAt member start) ∨
        start ∈ Piece.starts (Piece.fixedEnd (element.elementPieces elements))
          (element.elementPieces elements) := by
  cases own : element.scalar? with
  | some type =>
    obtain rfl := Schema.eq_scalar own
    obtain ⟨spellings, spelled, rfl, rfl⟩ := (Tree.holdsElements_packed own).mp holds
    simp only [Schema.elementChunks, own, List.length_map] at fits sized
    have width := Scalar.length_flatten spelled
    have packed := Tree.packedContent_ofBytes shallow (width ▸ fits)
    rw [width, sized] at packed
    rw [Schema.assemble_packed spelled, width, sized] at small
    -- Packed scalars are read as bytes, and none of them has an offset.
    refine .inl ⟨?_, ?_⟩
    · rintro start (⟨_, _, ⟨⟩⟩ | here)
      rw [Schema.elementPieces_packed spelled, Piece.starts_inline (by simp)] at here
      cases here
    · rw [Schema.assemble_packed spelled]
      simp only [Traced.elements, own, word_of_le small, ok_bind, packed, read_ok]
  | none =>
    obtain ⟨nodes, each, rfl⟩ := (Tree.holdsElements_subtrees own).mp holds
    simp only [Schema.elementChunks, own] at fits
    -- One node is found for each element.
    have count : length = UInt64.ofNat nodes.length := by
      rw [← each.length_eq, sized, UInt64.ofNat_toNat]
    have members := Tree.nodesAtDepth_ofNodes shallow (each.length_eq ▸ fits)
    -- No element is longer than the sequence.
    have within : ∀ member ∈ elements, (element.serialize member).length ≤ maxWord :=
      fun member inside => Nat.le_trans (Schema.length_le_elements inside) small
    simp only [Traced.elements, own, count, members, read_ok, ok_bind]
    apply ends_join (gathers_elements settles each within) _ small
    rw [Schema.fixedEnd_elementPieces holds.admitted, each.length_eq]

end Elements

end Traced

mutual

/--
On a canonical tree the encoder gives the serialization of the value, unless a variable member
inside the value starts out of reach: such a start is then what ends it.
-/
theorem Schema.ends_trace : (schema : Schema) → schema.Accepted → Settles schema schema.trace
  | .scalar type, _, value, tree, represents, _ => by
    obtain ⟨spelling, spelled, rfl, rfl⟩ := represents
    -- A scalar is cut out of its chunk without the padding.
    have cut := @Chunk.slice_padded spelling (spelled.1 ▸ type.byteLength_le)
    rw [spelled.1] at cut
    refine .inl ⟨nofun, ?_⟩
    rw [Schema.serialize, Scalar.spelling_decode spelled]
    exact congrArg Except.ok cut
  | .vector element length, accepted, value, tree, represents, small => by
    obtain ⟨elements, rfl, sized, holds⟩ := represents
    exact ends_elements (Schema.ends_trace element accepted.1) accepted.depth_lt
      (sized ▸ Schema.vector_fits element length) sized holds small
  | .list element maxLength, accepted, value, tree, represents, small => by
    obtain ⟨elements, content, rfl, bounded, holds, rfl⟩ := represents
    -- The stored length is the number of elements, which the limit was put on.
    have count := toNat_ofNat_of_le_word bounded
    simp only [Schema.trace, Tree.listParts_withLength, read_ok, ok_bind,
      checkLimit_of_le bounded]
    exact ends_elements (Schema.ends_trace element accepted.1) accepted.depth_lt
      (Schema.list_fits element bounded) count.symm holds small
  | .bitvector length, accepted, value, tree, represents, _ => by
    obtain ⟨bits, rfl, sized, rfl⟩ := represents
    have fits := Schema.bitvector_fits length
    have packed := @Tree.packedContent_ofBytes _ (packBits bits) accepted.depth_lt
      (by rw [length_packBits]; omega)
    rw [length_packBits, sized] at packed
    refine .inl ⟨nofun, ?_⟩
    simp only [Schema.trace, packed, read_ok, Schema.serialize]
  | .bitlist maxLength, accepted, value, tree, represents, _ => by
    obtain ⟨bits, rfl, bounded, rfl⟩ := represents
    have fits := Schema.bitlist_fits bounded
    have count := toNat_ofNat_of_le_word bounded
    have packed := @Tree.packedContent_ofBytes _ (packBits bits) accepted.depth_lt
      (by rw [length_packBits]; omega)
    rw [length_packBits] at packed
    refine .inl ⟨nofun, ?_⟩
    simp only [Schema.trace, Tree.listParts_withLength, read_ok, ok_bind,
      checkLimit_of_le bounded, count, packed, mark_packBits, Schema.serialize]
  | .container fields, accepted, value, tree, represents, small => by
    obtain ⟨members, nodes, rfl, each, rfl⟩ := represents
    have sized := each.length_eq.2
    have found := Tree.nodesAtDepth_ofNodes accepted.depth_lt (sized ▸ Schema.container_fits fields)
    rw [sized] at found
    -- No member is longer than the container.
    have gathered := Schema.gathers_tracedParts fields accepted.1 members nodes each
      fun piece among => Nat.le_trans (Piece.length_le_assemble among) small
    simp only [Schema.trace, found, read_ok, ok_bind]
    exact ends_join gathered (Schema.fixedEnd_pieces each) small
  | .union variants, accepted, value, tree, represents, small => by
    obtain ⟨selector, payload, variant, rfl, chosen, rfl⟩ := represents
    rw [Schema.serialize, List.length_append] at small
    -- The selector that is read names the variant that the payload is represented under.
    have ends := Schema.ends_traceVariant variants accepted.1 _ payload variant chosen
      (Nat.le_trans (Nat.le_add_left _ _) small)
    simp only [Schema.trace, Tree.unionParts_withSelector variant chosen.lt_length, read_ok,
      ok_bind]
    exact ends.map rfl

/-- The parts of a container gather the pieces of its members. -/
theorem Schema.gathers_tracedParts : (fields : List Field) → Schema.AcceptedFields fields →
    (members : List Value) → (nodes : List Tree) →
      Schema.RepresentsFields fields members nodes →
        (∀ piece ∈ Schema.pieces fields members, piece.bytes.length ≤ maxWord) →
          Gathers (Schema.tracedParts fields nodes) (Schema.pieces fields members)
            (Schema.FieldStartsAt fields members)
  | [], _, [], [], _, _ => .nil
  | ⟨_, schema⟩ :: fields, accepted, member :: members, node :: nodes, represents, small => by
    obtain ⟨first, later⟩ := List.forall_mem_cons.mp small
    exact .cons rfl (Schema.ends_trace schema accepted.1 member node represents.1 first)
      (Schema.gathers_tracedParts fields accepted.2 members nodes represents.2 later)

/-- The variant of a union gives the serialization of its payload, unless a start is too far. -/
theorem Schema.ends_traceVariant : (variants : List (Option Schema)) →
    Schema.AcceptedVariants variants → (selector : Nat) → (payload : Option Value) →
      (tree : Tree) → Schema.RepresentsVariant variants selector payload tree →
        (Schema.serializeVariant variants selector payload).length ≤ maxWord →
          Ends (Schema.traceVariant variants selector tree)
            (Schema.serializeVariant variants selector payload)
            (Schema.VariantStartsAt variants selector payload)
  -- The selector is counted down along the variants, and the empty one has nothing to serialize.
  | some schema :: _, accepted, 0, some value, tree, represents, small =>
    Schema.ends_trace schema accepted.1 value tree represents small
  | none :: _, _, 0, none, _, _, _ => .inl ⟨nofun, rfl⟩
  | some _ :: rest, accepted, selector + 1, payload, tree, represents, small =>
    Schema.ends_traceVariant rest accepted.2 selector payload tree represents small
  | none :: rest, accepted, selector + 1, payload, tree, represents, small =>
    Schema.ends_traceVariant rest accepted selector payload tree represents small

end

end Ssz
