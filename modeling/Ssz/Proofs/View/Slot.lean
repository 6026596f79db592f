import Ssz.Proofs.Tree.Position
import Ssz.Proofs.Value.Packed
import Ssz.Proofs.Value.Tree
import Ssz.View.Update

/-! Reading and writing the slot of one element or bit in a content tree, alone or in a list. -/

namespace Ssz

/-- The schema of the member in a slot. -/
def Slot.schema : Slot → Schema
  | .subtree _ schema => schema
  | .packed _ _ type => .scalar type
  | .bit _ _ => .scalar .boolean

/-- The slot of an element has the schema of the element. -/
@[simp] theorem Schema.schema_sequenceSlot (element : Schema) (index : UInt64) (depth : Nat) :
    (element.sequenceSlot index depth).schema = element := by
  cases own : element.scalar? with
  | some type =>
    obtain rfl := eq_scalar own
    rfl
  | none => simp only [sequenceSlot, own, Slot.schema]

/-- The number of the chunk that a scalar lies in. -/
theorem Scalar.toNat_div_share (type : Scalar) (index : UInt64) :
    (index / UInt64.ofNat type.perChunk).toNat = index.toNat / type.perChunk := by
  cases type <;> simp [perChunk, byteLength]

/-- The number of a scalar within its chunk. -/
theorem Scalar.toNat_mod_share (type : Scalar) (index : UInt64) :
    (index % UInt64.ofNat type.perChunk).toNat = index.toNat % type.perChunk := by
  cases type <;> simp [perChunk, byteLength, Nat.mod_one]

/-- The chunk of a scalar lies in a content tree with room for the scalar. -/
theorem Scalar.div_share_lt (type : Scalar) {index room : Nat}
    (fits : ((index + 1) * type.byteLength + 31) / 32 ≤ room) : index / type.perChunk < room := by
  cases type <;> simp only [byteLength, perChunk] at fits ⊢ <;> omega

namespace View

/-- The spelling that a scalar leaf was made of starts its chunk. -/
theorem slice_leaf {type : Scalar} {piece : Bytes} (spelled : type.Spelled piece) :
    (Chunk.padded piece).slice 0 type.byteLength = piece := by
  rw [← spelled.1]
  exact Chunk.slice_padded (spelled.1 ▸ type.byteLength_le)

/-- The truth value of a leaf that a truth value was written to. -/
theorem asBool_of_represents {value : Value} {node : Tree}
    (represents : (Schema.scalar .boolean).Represents value node) :
    ∃ bit, value = .bool bit ∧ (⟨.scalar .boolean, node⟩ : View).asBool = .ok bit := by
  have read := Schema.valueOf_of_represents (.scalar .boolean) trivial value node represents
  obtain ⟨bytes, spelled, rfl, rfl⟩ := represents
  -- The leaf holds one byte, and whether it is zero is the truth value.
  obtain ⟨byte, rfl⟩ := List.length_eq_one_iff.mp spelled.1
  refine ⟨_, rfl, ?_⟩
  rw [asBool, toValue, read]
  rfl

/-- Writing a value is building its tree and writing the view of that tree. -/
theorem writeValue_eq_writeView (view : View) (slot : Slot) (value : Value) :
    view.writeValue slot value =
      (slot.schema.treeOf value >>= fun node => view.writeView slot ⟨slot.schema, node⟩) := by
  cases slot with
  | subtree gindex schema => simp [writeValue, writeView, Slot.schema]
  | packed gindex offset type =>
    cases written : type.encode value with
    | error fault => simp [writeValue, Slot.schema, Schema.treeOf, written]
    | ok bytes =>
      -- A scalar is put into a leaf and cut out of it again without change.
      have cut := slice_leaf (Scalar.spelled_of_encode written)
      simp [writeValue, writeView, Slot.schema, Schema.treeOf, written, Schema.scalar?,
        Tree.leafOfBytes, Tree.chunkAt_root, cut]
  | bit gindex position =>
    cases value with
    | bool bit => cases bit <;> rfl
    | _ => rfl

section Levels

variable {schema other : Schema} {depth : Nat} {index : UInt64} {left updated : Tree}

/-- Bytes written below the left child leave the right child alone. -/
theorem writeBytes_left (shallow : depth + 1 < 64) (within : index.toNat < 2 ^ depth)
    {offset : Nat} {bytes : Bytes} (right : Tree)
    (written : (⟨schema, left⟩ : View).writeBytes (Gindex.ofDepthIndex depth index) offset bytes =
      .ok updated) :
    (⟨other, .branch left right⟩ : View).writeBytes (Gindex.ofDepthIndex (depth + 1) index) offset
      bytes = .ok (.branch updated right) := by
  -- The same chunk is read and replaced, one step further down.
  obtain ⟨chunk, found, done⟩ := bind_eq_ok.mp written
  rw [writeBytes, Tree.chunkAt_left shallow within right found, ok_bind]
  exact Tree.update_left shallow within right done

/-- A bit written below the left child leaves the right child alone. -/
theorem writeBit_left (shallow : depth + 1 < 64) (within : index.toNat < 2 ^ depth)
    {position : Nat} {bit : Bool} (right : Tree)
    (written : (⟨schema, left⟩ : View).writeBit (Gindex.ofDepthIndex depth index) position bit =
      .ok updated) :
    (⟨other, .branch left right⟩ : View).writeBit (Gindex.ofDepthIndex (depth + 1) index) position
      bit = .ok (.branch updated right) := by
  -- The same chunk is read and replaced, one step further down.
  obtain ⟨chunk, found, done⟩ := bind_eq_ok.mp written
  rw [writeBit, Tree.chunkAt_left shallow within right found, ok_bind]
  exact Tree.update_left shallow within right done

end Levels

section Elements

variable {element : Schema} {elements : List Value} {depth : Nat} {content : Tree} {index : UInt64}

/-- An element is read from the content tree, and alike from a list around that tree. -/
theorem memberIn_sequence (shallow : depth < 64)
    (fits : element.elementChunks (index.toNat + 1) ≤ 2 ^ depth)
    (holds : Tree.HoldsElements element element.Represents elements depth content)
    (within : index.toNat < elements.length) :
    ∃ member node, elements[index.toNat]? = some member ∧ element.Represents member node ∧
      (∀ schema, (⟨schema, content⟩ : View).memberIn (element.sequenceSlot index depth) =
        .ok ⟨element, node⟩) ∧
      (∀ schema right, depth + 1 < 64 →
        (⟨schema, .branch content right⟩ : View).memberIn
          (element.sequenceSlot index (depth + 1)) = .ok ⟨element, node⟩) := by
  cases own : element.scalar? with
  | some type =>
    obtain rfl := Schema.eq_scalar own
    obtain ⟨pieces, spelled, rfl, rfl⟩ := (Tree.holdsElements_packed own).mp holds
    simp only [List.length_map] at within
    have found := List.getElem?_eq_getElem within
    -- A scalar is cut out of the chunk that holds it.
    have cut := Scalar.slice_window spelled found
    have room := type.div_share_lt fits
    rw [← type.toNat_div_share] at room
    have here := Tree.chunkAt_ofBytes shallow room pieces.flatten
    rw [type.toNat_div_share] at here
    refine ⟨type.decode pieces[index.toNat], Tree.leafOfBytes pieces[index.toNat], by simp [found],
      ⟨_, spelled _ (List.mem_of_getElem? found), rfl, rfl⟩, ?_, ?_⟩
    · intro schema
      simp [memberIn, Schema.sequenceSlot, own, here, type.toNat_mod_share, cut]
    · intro schema right deeper
      have below := Tree.chunkAt_left deeper room right here
      simp [memberIn, Schema.sequenceSlot, own, below, type.toNat_mod_share, cut]
  | none =>
    obtain ⟨nodes, each, rfl⟩ := (Tree.holdsElements_subtrees own).mp holds
    simp only [Schema.elementChunks, own] at fits
    -- Any other element has a node of its own.
    have counted := each.length_eq
    have inside : index.toNat < nodes.length := by omega
    have found : nodes[index.toNat]? = some nodes[index.toNat] := List.getElem?_eq_getElem inside
    have here := Tree.navigate_ofNodes shallow (by omega) found
    refine ⟨elements[index.toNat], _, List.getElem?_eq_getElem within, each.get within (by omega),
      ?_, ?_⟩
    · intro schema
      simp only [memberIn, Schema.sequenceSlot, own, here, ok_bind]
      rfl
    · intro schema right deeper
      have below := Tree.navigate_left deeper (by omega) right here
      simp only [memberIn, Schema.sequenceSlot, own, below, ok_bind]
      rfl

/--
A member written after the elements in use, or over one of them, gives the content tree of the new
elements, and alike in a list around that tree.
-/
theorem writeView_sequence (shallow : depth < 64)
    (fits : element.elementChunks (index.toNat + 1) ≤ 2 ^ depth)
    (holds : Tree.HoldsElements element element.Represents elements depth content)
    (reached : index.toNat ≤ elements.length) {member : Value} {node : Tree}
    (represents : element.Represents member node) :
    ∃ updated,
      Tree.HoldsElements element element.Represents (overwrite elements index.toNat member) depth
        updated ∧
      (∀ schema, (⟨schema, content⟩ : View).writeView (element.sequenceSlot index depth)
        ⟨element, node⟩ = .ok updated) ∧
      (∀ schema right, depth + 1 < 64 →
        (⟨schema, .branch content right⟩ : View).writeView
          (element.sequenceSlot index (depth + 1)) ⟨element, node⟩ =
            .ok (.branch updated right)) := by
  cases own : element.scalar? with
  | some type =>
    obtain rfl := Schema.eq_scalar own
    obtain ⟨pieces, spelled, rfl, rfl⟩ := (Tree.holdsElements_packed own).mp holds
    obtain ⟨piece, fresh, rfl, rfl⟩ := represents
    simp only [List.length_map] at reached
    -- A scalar is patched into its chunk, and the other chunks stay.
    have room := type.div_share_lt fits
    have each : ∀ other ∈ overwrite pieces index.toNat piece, type.Spelled other := by
      intro other member
      rcases mem_overwrite member with rfl | old
      · exact fresh
      · exact spelled other old
    rw [← type.toNat_div_share] at room
    have written : ∀ schema, (⟨schema, Tree.ofBytes depth pieces.flatten⟩ : View).writeBytes
        (Gindex.ofDepthIndex depth (index / UInt64.ofNat type.perChunk))
        (index.toNat % type.perChunk * type.byteLength) piece =
          .ok (Tree.ofBytes depth (overwrite pieces index.toNat piece).flatten) := by
      intro schema
      rw [writeBytes, Tree.chunkAt_ofBytes shallow room, ok_bind]
      apply Tree.update_ofBytes shallow room
      · rw [type.toNat_div_share, Scalar.window_overwrite_here spelled fresh reached]
      · intro i other
        rw [type.toNat_div_share] at other
        exact Scalar.window_overwrite_elsewhere spelled fresh reached other
    refine ⟨_, (Tree.holdsElements_packed own).mpr ⟨_, each, (map_overwrite _ _ _ _).symm, rfl⟩,
      ?_, ?_⟩
    · intro schema
      simp [writeView, Schema.sequenceSlot, own, Tree.leafOfBytes, Tree.chunkAt_root,
        slice_leaf fresh, type.toNat_mod_share, written schema]
    · intro schema right deeper
      have below := @writeBytes_left schema schema _ _ _ _ deeper room _ _ right (written schema)
      simp [writeView, Schema.sequenceSlot, own, Tree.leafOfBytes, Tree.chunkAt_root,
        slice_leaf fresh, type.toNat_mod_share, below]
  | none =>
    obtain ⟨nodes, each, rfl⟩ := (Tree.holdsElements_subtrees own).mp holds
    simp only [Schema.elementChunks, own] at fits
    rw [each.length_eq] at reached
    -- Any other element takes the place of its node.
    have done := Tree.update_ofNodes shallow fits reached node
    refine ⟨_, (Tree.holdsElements_subtrees own).mpr ⟨_, forall₂_overwrite each _ represents, rfl⟩,
      ?_, ?_⟩
    · intro schema
      simp [writeView, Schema.sequenceSlot, own, done]
    · intro schema right deeper
      simp [writeView, Schema.sequenceSlot, own, Tree.update_left deeper fits right done]

end Elements

section Bits

variable {bits : List Bool} {depth : Nat} {index : UInt64}

/-- The chunk of a bit lies in a content tree with room for the bit. -/
theorem div_chunk_lt (fits : (index.toNat + 256) / 256 ≤ 2 ^ depth) :
    (index / 256).toNat < 2 ^ depth := by
  simp only [UInt64.toNat_div, UInt64.reduceToNat]
  omega

/-- A bit is read from the content tree, and alike from a bitlist around that tree. -/
theorem memberIn_bits (shallow : depth < 64) (fits : (index.toNat + 256) / 256 ≤ 2 ^ depth)
    (within : index.toNat < bits.length) :
    ∃ bit node, bits[index.toNat]? = some bit ∧
      (Schema.scalar .boolean).Represents (.bool bit) node ∧
      (∀ schema, (⟨schema, Tree.ofBytes depth (packBits bits)⟩ : View).memberIn
        (Schema.bitSlot index depth) = .ok ⟨.scalar .boolean, node⟩) ∧
      (∀ schema right, depth + 1 < 64 →
        (⟨schema, .branch (Tree.ofBytes depth (packBits bits)) right⟩ : View).memberIn
          (Schema.bitSlot index (depth + 1)) = .ok ⟨.scalar .boolean, node⟩) := by
  have found := List.getElem?_eq_getElem within
  have room := div_chunk_lt fits
  have here := Tree.chunkAt_ofBytes shallow room (packBits bits)
  have read := getBit_window_packBits found
  -- A chunk holds 256 bits, so words and numbers divide alike.
  have quotient : (index / 256).toNat = index.toNat / 256 := by simp
  have remainder : (index % 256).toNat = index.toNat % 256 := by simp
  rw [quotient] at here
  refine ⟨bits[index.toNat], Tree.leafOfBytes [if bits[index.toNat] then 1 else 0], found, ?_, ?_,
    ?_⟩
  · refine ⟨_, ?_, ?_, rfl⟩
    · exact Scalar.spelled_bit _
    · cases bits[index.toNat] <;> rfl
  · intro schema
    simp [memberIn, Schema.bitSlot, here, remainder, read]
  · intro schema right deeper
    have below := Tree.chunkAt_left deeper room right here
    simp [memberIn, Schema.bitSlot, below, remainder, read]

/--
A truth value written after the bits in use, or over one of them, gives the content tree of the new
bits, and alike in a bitlist around that tree.
-/
theorem writeView_bits (shallow : depth < 64) (fits : (index.toNat + 256) / 256 ≤ 2 ^ depth)
    (reached : index.toNat ≤ bits.length) {bit : Bool} {node : Tree}
    (represents : (Schema.scalar .boolean).Represents (.bool bit) node) :
    (∀ schema, (⟨schema, Tree.ofBytes depth (packBits bits)⟩ : View).writeView
      (Schema.bitSlot index depth) ⟨.scalar .boolean, node⟩ =
        .ok (Tree.ofBytes depth (packBits (overwrite bits index.toNat bit)))) ∧
    (∀ schema right, depth + 1 < 64 →
      (⟨schema, .branch (Tree.ofBytes depth (packBits bits)) right⟩ : View).writeView
        (Schema.bitSlot index (depth + 1)) ⟨.scalar .boolean, node⟩ =
          .ok (.branch (Tree.ofBytes depth (packBits (overwrite bits index.toNat bit)))
            right)) := by
  have room := div_chunk_lt fits
  have quotient : (index / 256).toNat = index.toNat / 256 := by simp
  have remainder : (index % 256).toNat = index.toNat % 256 := by simp
  -- What is written is the truth value that the leaf of the member shows.
  obtain ⟨_, same, truth⟩ := asBool_of_represents represents
  cases same
  have written : ∀ schema, (⟨schema, Tree.ofBytes depth (packBits bits)⟩ : View).writeBit
      (Gindex.ofDepthIndex depth (index / 256)) (index.toNat % 256) bit =
        .ok (Tree.ofBytes depth (packBits (overwrite bits index.toNat bit))) := by
    intro schema
    rw [writeBit, Tree.chunkAt_ofBytes shallow room, ok_bind]
    apply Tree.update_ofBytes shallow room
    · rw [quotient, window_packBits_here bit reached]
    · intro i other
      rw [quotient] at other
      exact window_packBits_elsewhere bit reached other
  constructor
  · intro schema
    simp [writeView, Schema.bitSlot, Schema.scalar?, truth, remainder, written schema]
  · intro schema right deeper
    -- Around the content of a bitlist only the way to the chunk is longer.
    have below := @writeBit_left schema schema _ _ _ _ deeper room _ _ right (written schema)
    simp [writeView, Schema.bitSlot, Schema.scalar?, truth, remainder, below]

end Bits

end View

end Ssz
