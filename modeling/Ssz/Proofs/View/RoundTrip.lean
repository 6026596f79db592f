import Ssz.Proofs.Codec.Encode
import Ssz.Proofs.View.Reachable

/-! Round trips: encoding restores the bytes that were decoded, and decoding restores the view. -/

namespace Ssz.View

/-- Decoded bytes serialize one value of the schema, which the view holds. -/
theorem value_of_decode {schema : Schema} (accepted : schema.Accepted) {bytes : Bytes} {view : View}
    (read : decode schema bytes = .ok view) :
    ∃ value, view.schema = schema ∧ schema.Represents value view.tree ∧
      view.toValue = .ok value ∧ schema.OffsetsFit value ∧ schema.serialize value = bytes := by
  obtain ⟨rfl, built⟩ := decode_eq_ok.mp read
  -- The decoder is sound, and what represents a value is read back as that value.
  obtain ⟨value, represents, same, fit⟩ := Schema.decode_sound _ accepted bytes view.tree built
  exact ⟨value, rfl, represents,
    Schema.valueOf_of_represents _ accepted value view.tree represents, fit, same⟩

/-- Byte strings that are decoded into the same value are the same. -/
theorem decode_injective {schema : Schema} (accepted : schema.Accepted) {first second : Bytes}
    {view other : View} (read : decode schema first = .ok view)
    (also : decode schema second = .ok other) (same : view.toValue = other.toValue) :
    first = second := by
  obtain ⟨value, _, _, held, _, rfl⟩ := value_of_decode accepted read
  obtain ⟨otherValue, _, _, otherHeld, _, rfl⟩ := value_of_decode accepted also
  -- Both inputs serialize the one value that is held.
  rw [held, otherHeld] at same
  rw [Except.ok.inj same]

/-- A canonical view that has an encoding is restored from it. -/
theorem Canonical.restored {view : View} (canonical : view.Canonical) {bytes : Bytes}
    (written : view.encode = .ok bytes) : View.decode view.schema bytes = .ok view := by
  obtain ⟨accepted, value, represents⟩ := canonical
  -- What was written is the serialization of the value, with all offsets in reach.
  obtain ⟨fit, rfl⟩ := (Schema.encode_eq_ok _ accepted value _ bytes represents).mp written
  rw [View.decode, Schema.decode_complete _ accepted value _ represents fit]
  rfl

/--
Encoding undoes decoding: accepted bytes are restored exactly, they are the serialization of the
value, and no other bytes are decoded into the same tree or the same value.
-/
theorem encode_of_decode {schema : Schema} (accepted : schema.Accepted) {bytes : Bytes}
    {view : View} (read : decode schema bytes = .ok view) :
    view.encode = .ok bytes ∧
      (∃ value, view.toValue = .ok value ∧ schema.serialize value = bytes) ∧
      ∀ (other : Bytes) (otherView : View), decode schema other = .ok otherView →
        otherView.tree = view.tree ∨ otherView.toValue = view.toValue → other = bytes := by
  obtain ⟨value, own, represents, held, fit, same⟩ := value_of_decode accepted read
  refine ⟨?_, ⟨value, held, same⟩, ?_⟩
  · rw [encode, own]
    exact (Schema.encode_eq_ok schema accepted value _ bytes represents).mpr ⟨fit, same⟩
  · intro other otherView also equal
    -- Same trees of one schema are read as the same value, so both cases reduce to that.
    refine decode_injective accepted also read ?_
    rcases equal with trees | values
    · obtain ⟨_, otherOwn, _⟩ := value_of_decode accepted also
      rw [toValue, toValue, otherOwn, own, trees]
    · exact values

/-- A container whose only field, a union with its payload, lies behind an offset. -/
theorem encode_of_decode_offset :
    ∃ view, decode (.container [⟨"payload", .union [none, some (.scalar .uint8)]⟩])
        [4, 0, 0, 0, 1, 0, 0, 0, 7] = .ok view ∧
      view.encode = .ok [4, 0, 0, 0, 1, 0, 0, 0, 7] := by
  have accepted : (Schema.container
      [⟨"payload", .union [none, some (.scalar .uint8)]⟩]).Accepted :=
    ⟨⟨⟨⟨trivial, trivial⟩, rfl⟩, trivial⟩, rfl⟩
  -- One offset, then the selector, then the payload.
  have read : decode (.container [⟨"payload", .union [none, some (.scalar .uint8)]⟩])
      [4, 0, 0, 0, 1, 0, 0, 0, 7] = .ok ⟨_, (Tree.leafOfBytes [7]).withSelector 1⟩ := rfl
  exact ⟨_, read, (encode_of_decode accepted read).1⟩

/-- Decoding undoes encoding: a reachable view is restored from its bytes, with the same tree. -/
theorem Reachable.decode_encode {view : View} (reachable : view.Reachable) {bytes : Bytes}
    (written : view.encode = .ok bytes) : View.decode view.schema bytes = .ok view :=
  reachable.canonical.restored written

/-- A list that was extended by two unions, of which the first was then given a payload. -/
theorem Reachable.decode_encode_unions :
    ∃ extended view,
      (View.ofDefault (.list (.union [none, some (.scalar .uint8)]) 2)).extend
        [.union 0 none, .union 1 (some (.uint 7))] = .ok extended ∧
      extended.set (.index 0) (.union 1 (some (.uint 9))) = .ok view ∧
      view.encode = .ok [8, 0, 0, 0, 13, 0, 0, 0, 1, 0, 0, 0, 9, 1, 0, 0, 0, 7] ∧
      View.decode view.schema [8, 0, 0, 0, 13, 0, 0, 0, 1, 0, 0, 0, 9, 1, 0, 0, 0, 7] =
        .ok view := by
  have accepted : (Schema.list (.union [none, some (.scalar .uint8)]) 2).Accepted :=
    ⟨⟨⟨trivial, trivial⟩, rfl⟩, rfl⟩
  -- Two offsets, and each union begins with its selector.
  obtain ⟨extended, view, done, set, written⟩ : ∃ extended view,
      (View.ofDefault (.list (.union [none, some (.scalar .uint8)]) 2)).extend
        [.union 0 none, .union 1 (some (.uint 7))] = .ok extended ∧
      extended.set (.index 0) (.union 1 (some (.uint 9))) = .ok view ∧
      view.encode = .ok [8, 0, 0, 0, 13, 0, 0, 0, 1, 0, 0, 0, 9, 1, 0, 0, 0, 7] :=
    ⟨_, _, rfl, rfl, rfl⟩
  exact ⟨extended, view, done, set, written,
    Reachable.decode_encode (.set (.extend (.ofDefault accepted) done) set) written⟩

end Ssz.View
