import Ssz.Proofs.Value.Normal
import Ssz.Proofs.View.Member

/-! Appending to lists and bitlists: one more element after those in use, and the length with it. -/

namespace Ssz.View

/-- Appending writes the content of a list, one place further on, and counts the new element. -/
theorem append_withLength {schema : Schema} {content refilled node : Tree} {length max : UInt64}
    {slot : Slot} {value : Value}
    (limited : (⟨schema, content.withLength length⟩ : View).maxLength = .ok max)
    (room : ¬ max ≤ length) (found : schema.slotAt length (some (length + 1)) = .ok slot)
    (built : slot.schema.treeOf value = .ok node)
    (written : (⟨schema, content.withLength length⟩ : View).writeView slot ⟨slot.schema, node⟩ =
      .ok (refilled.withLength length)) :
    (⟨schema, content.withLength length⟩ : View).append value =
      .ok ⟨schema, refilled.withLength (length + 1)⟩ := by
  -- The checks on the length pass, and the value is written before the length is.
  rw [append, limited, ok_bind]
  simp only [Tree.listParts_withLength, ok_bind, if_neg room, found, writeValue_eq_writeView, built,
    written]
  rfl

/-- Nothing is appended to a list that has its greatest length already. -/
theorem append_full {schema : Schema} {content : Tree} {length max : UInt64} (value : Value)
    (limited : (⟨schema, content.withLength length⟩ : View).maxLength = .ok max)
    (full : max ≤ length) :
    (⟨schema, content.withLength length⟩ : View).append value =
      .error (.lengthExceedsMax (length.toNat + 1) max.toNat) := by
  simp [append, limited, Tree.listParts_withLength, full]

/-- Nothing is appended whose tree cannot be built, for the same reason. -/
theorem append_unbuilt {schema : Schema} {content : Tree} {length max : UInt64} {slot : Slot}
    {value : Value} {fault : ViewError}
    (limited : (⟨schema, content.withLength length⟩ : View).maxLength = .ok max)
    (room : ¬ max ≤ length) (found : schema.slotAt length (some (length + 1)) = .ok slot)
    (unbuilt : slot.schema.treeOf value = .error fault) :
    (⟨schema, content.withLength length⟩ : View).append value = .error fault := by
  simp [append, limited, Tree.listParts_withLength, room, found, writeValue_eq_writeView, unbuilt]

section Room

variable {count : Nat} {maxLength : UInt64}

/-- The place right after the last element lies below the length after appending. -/
theorem slotBelow_next (room : count < maxLength.toNat) (slot : Slot) :
    Schema.slotBelow (UInt64.ofNat count) (UInt64.ofNat count + 1) slot = .ok slot := by
  rw [slotBelow_eq_ok, ← UInt64.ofNat_one, ← UInt64.ofNat_add, toNat_ofNat_of_le_word room,
    toNat_ofNat_of_le_word (Nat.le_of_lt room)]
  exact ⟨Nat.lt_succ_self count, rfl⟩

/-- The slot right after the elements of a list is found under the length after appending. -/
theorem slotAt_list_next (room : count < maxLength.toNat) (element : Schema) :
    (Schema.list element maxLength).slotAt (UInt64.ofNat count) (some (UInt64.ofNat count + 1)) =
      .ok (element.sequenceSlot (UInt64.ofNat count) ((Schema.list element maxLength).depth + 1)) :=
  slotBelow_next room _

/-- The slot right after the bits of a bitlist is found under the length after appending. -/
theorem slotAt_bitlist_next (room : count < maxLength.toNat) :
    (Schema.bitlist maxLength).slotAt (UInt64.ofNat count) (some (UInt64.ofNat count + 1)) =
      .ok (Schema.bitSlot (UInt64.ofNat count) ((Schema.bitlist maxLength).depth + 1)) :=
  slotBelow_next room _

/-- A list with room is not yet as long as its greatest length. -/
theorem not_max_le (room : count < maxLength.toNat) : ¬ maxLength ≤ UInt64.ofNat count := by
  rw [UInt64.le_iff_toNat_le, toNat_ofNat_of_le_word (Nat.le_of_lt room)]
  omega

end Room

/-- An element with a tree is appended to a list that has room. -/
theorem append_list {element : Schema} {maxLength : UInt64} {elements : List Value}
    {content node : Tree} {value : Value} (accepted : (Schema.list element maxLength).Accepted)
    (room : elements.length < maxLength.toNat)
    (holds : Tree.HoldsElements element element.Represents elements
      (Schema.list element maxLength).depth content)
    (built : element.treeOf value = .ok node) :
    ∃ refilled,
      Tree.HoldsElements element element.Represents (elements ++ [element.normal value])
        (Schema.list element maxLength).depth refilled ∧
      (⟨.list element maxLength, content.withLength (UInt64.ofNat elements.length)⟩ : View).append
        value = .ok ⟨.list element maxLength,
          refilled.withLength (UInt64.ofNat (elements.length + 1))⟩ := by
  have count := toNat_ofNat_of_le_word (Nat.le_of_lt room)
  have deeper := accepted.depth_le
  have inhabits := Schema.represents_of_treeOf element accepted.1 value node built
  -- The next element still has its place in the content tree.
  have fits := Schema.list_fits element room
  rw [Nat.succ_eq_add_one, ← count] at fits
  obtain ⟨refilled, more, _, written⟩ := writeView_sequence accepted.depth_lt fits holds
    (Nat.le_of_eq count) inhabits
  -- Writing right after the last element adds one.
  rw [count, overwrite_length] at more
  refine ⟨refilled, more, ?_⟩
  rw [UInt64.ofNat_add]
  apply append_withLength rfl (not_max_le room) (slotAt_list_next room element)
  · rw [Schema.schema_sequenceSlot]
    exact built
  · rw [Schema.schema_sequenceSlot]
    exact written _ _ (by omega)

/-- A truth value is appended to a bitlist that has room. -/
theorem append_bitlist {maxLength : UInt64} {bits : List Bool} (bit : Bool)
    (accepted : (Schema.bitlist maxLength).Accepted) (room : bits.length < maxLength.toNat) :
    (⟨.bitlist maxLength, (Tree.ofBytes (Schema.bitlist maxLength).depth (packBits bits)).withLength
      (UInt64.ofNat bits.length)⟩ : View).append (.bool bit) =
        .ok ⟨.bitlist maxLength,
          (Tree.ofBytes (Schema.bitlist maxLength).depth (packBits (bits ++ [bit]))).withLength
            (UInt64.ofNat (bits.length + 1))⟩ := by
  have count := toNat_ofNat_of_le_word (Nat.le_of_lt room)
  have deeper := accepted.depth_le
  have built : (Schema.scalar .boolean).treeOf (.bool bit) =
      .ok (Tree.leafOfBytes [if bit then 1 else 0]) := rfl
  have inhabits := Schema.represents_of_treeOf (.scalar .boolean) (by trivial) _ _ built
  -- The next bit still has its place in the content tree.
  have fits := Schema.bitlist_fits room
  rw [Nat.succ_eq_add_one, Nat.add_assoc, ← count] at fits
  obtain ⟨_, written⟩ := writeView_bits accepted.depth_lt fits (Nat.le_of_eq count) inhabits
  rw [count, overwrite_length] at written
  rw [UInt64.ofNat_add]
  exact append_withLength rfl (not_max_le room) (slotAt_bitlist_next room) built
    (written _ _ (by omega))

end Ssz.View
