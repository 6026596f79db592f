import Ssz.Proofs.Codec.Reach
import Ssz.Proofs.View.RoundTrip

/-!
The wire format: a view encodes to the serialization of its value, which needs no tree, and only
members that start out of reach of an offset keep it from being encoded.
-/

namespace Ssz.View

/--
A reachable view has a value, and it is encoded exactly when all offsets in the serialization of
that value fit in four bytes; the encoding is then this serialization.
-/
theorem Reachable.encode_eq_serialize {view : View} (reachable : view.Reachable) :
    ∃ value, view.toValue = .ok value ∧
      ∀ bytes, view.encode = .ok bytes ↔
        view.schema.OffsetsFit value ∧ view.schema.serialize value = bytes := by
  obtain ⟨accepted, value, represents⟩ := reachable.canonical
  -- The tree represents the value, and encoding it was settled by recursion on the schema.
  refine ⟨value, Schema.valueOf_of_represents _ accepted value _ represents, ?_⟩
  exact fun bytes => Schema.encode_eq_ok _ accepted value _ bytes represents

/-- A number and a list of choices, which have offsets of their own inside the list. -/
theorem Reachable.encode_eq_serialize_choices :
    ∃ view, (View.ofDefault (.container [⟨"id", .scalar .uint16⟩,
        ⟨"choices", .list (.union [none, some (.scalar .uint8)]) 3⟩])).set (.name "choices")
          (.sequence [.union 1 (some (.uint 7)), .union 0 none]) = .ok view ∧
      ∃ value, view.toValue = .ok value ∧ view.schema.OffsetsFit value ∧
        view.schema.serialize value =
          [0, 0, 6, 0, 0, 0, 8, 0, 0, 0, 13, 0, 0, 0, 1, 0, 0, 0, 7, 0, 0, 0, 0] := by
  have accepted : (Schema.container [⟨"id", .scalar .uint16⟩,
      ⟨"choices", .list (.union [none, some (.scalar .uint8)]) 3⟩]).Accepted :=
    ⟨⟨trivial, ⟨⟨⟨trivial, trivial⟩, rfl⟩, rfl⟩, trivial⟩, rfl⟩
  -- The list starts at six, and in it the choices start at eight and at thirteen.
  have done : ∃ view, (View.ofDefault (.container [⟨"id", .scalar .uint16⟩,
      ⟨"choices", .list (.union [none, some (.scalar .uint8)]) 3⟩])).set (.name "choices")
        (.sequence [.union 1 (some (.uint 7)), .union 0 none]) = .ok view ∧
      view.encode =
        .ok [0, 0, 6, 0, 0, 0, 8, 0, 0, 0, 13, 0, 0, 0, 1, 0, 0, 0, 7, 0, 0, 0, 0] :=
    ⟨_, rfl, rfl⟩
  obtain ⟨view, changed, written⟩ := done
  obtain ⟨value, read, encoded⟩ :=
    Reachable.encode_eq_serialize (.set (.ofDefault accepted) changed)
  exact ⟨view, changed, value, read, (encoded _).mp written⟩

/-- What it means that a view of a value is encoded unless a variable member starts out of reach. -/
structure EncodesInReach (view : View) (value : Value) : Prop where
  /-- The view fails to be encoded exactly when a variable member inside its value starts so far. -/
  fails : (∃ fault, view.encode = .error fault) ↔
    ∃ start, view.schema.StartsAt value start ∧ maxOffset < start
  /-- The error names such a start. -/
  names : ∀ fault, view.encode = .error fault →
    ∃ start, view.schema.StartsAt value start ∧ maxOffset < start ∧
      fault = .lengthExceedsMax start maxOffset
  /-- A view whose serialization an offset can pass is encoded. -/
  short : (view.schema.serialize value).length < 2 ^ 32 →
    view.encode = .ok (view.schema.serialize value)
  /-- The encoder ends as its trace tells. -/
  told : Traced.Tells (view.schema.trace view.tree) view.encode
  /-- No read from the tree, limit of a list, sum or index ends the trace. -/
  only : ∀ halt, view.schema.trace view.tree = .error halt → ∃ start, halt = .tooFar start

/-- A canonical view is encoded unless a variable member inside its value starts out of reach. -/
theorem Canonical.encodesInReach {view : View} (accepted : view.schema.Accepted) {value : Value}
    (represents : view.schema.Represents value view.tree)
    (small : (view.schema.serialize value).length ≤ maxWord) : EncodesInReach view value := by
  have told := Schema.tells_trace view.schema view.tree
  -- The trace has two ways to end, and what it tells carries over to the encoder.
  rcases Schema.ends_trace view.schema accepted value view.tree represents small with
    ⟨fit, traced⟩ | ⟨start, starts, far, traced⟩
  · -- All starts are within reach, so there is a result.
    rw [traced] at told
    have encoded : view.encode = .ok (view.schema.serialize value) := told
    have kept (fault : ViewError) : view.encode ≠ .error fault := by simp [encoded]
    refine ⟨⟨fun ⟨fault, failed⟩ => absurd failed (kept fault), ?_⟩,
      fun fault failed => absurd failed (kept fault), fun _ => encoded, traced ▸ told, ?_⟩
    · intro ⟨start, starts, far⟩
      exact absurd (fit start starts) (Nat.not_le.mpr far)
    · intro halt ended
      rw [traced] at ended
      cases ended
  · rw [traced] at told
    have failed : view.encode = .error (.lengthExceedsMax start maxOffset) := told _ rfl
    refine ⟨⟨fun _ => ⟨start, starts, far⟩, fun _ => ⟨_, failed⟩⟩, ?_, ?_, traced ▸ told, ?_⟩
    · intro fault other
      exact ⟨start, starts, far, Except.error.inj (other.symm.trans failed)⟩
    · -- A serialization that is this short has no start so far.
      intro short
      have within := Schema.start_le_serialize view.schema value start starts
      simp only [maxOffset, UInt32.size] at far
      omega
    · intro halt ended
      exact ⟨start, Except.error.inj (ended.symm.trans traced)⟩

/--
Encoding fails for one reason only: a reachable view, whose serialization is not too long for any
memory, is encoded unless a variable member inside its value starts out of reach of an offset.
-/
theorem Reachable.encode_fails_iff {view : View} (reachable : view.Reachable) :
    ∃ value, view.toValue = .ok value ∧
      ((view.schema.serialize value).length < 2 ^ 63 → EncodesInReach view value) := by
  obtain ⟨accepted, value, represents⟩ := reachable.canonical
  refine ⟨value, Schema.valueOf_of_represents _ accepted value _ represents, ?_⟩
  intro small
  exact Canonical.encodesInReach accepted represents
    (Nat.le_trans (Nat.le_of_lt small) (by decide))

/-- A list behind a body of four gigabytes, which fills up all that offsets reach. -/
theorem Reachable.encode_fails_iff_behind :
    (View.ofDefault (.container [⟨"notes", .list (.scalar .uint8) 1⟩,
        ⟨"body", .vector (.scalar .uint8) 0x100000000⟩])).encode =
      .error (.lengthExceedsMax 4294967300 4294967295) ∧
    ∃ value, (View.ofDefault (.container [⟨"notes", .list (.scalar .uint8) 1⟩,
        ⟨"body", .vector (.scalar .uint8) 0x100000000⟩])).toValue = .ok value ∧
      (Schema.container [⟨"notes", .list (.scalar .uint8) 1⟩,
        ⟨"body", .vector (.scalar .uint8) 0x100000000⟩]).StartsAt value 4294967300 := by
  have accepted : (Schema.container [⟨"notes", .list (.scalar .uint8) 1⟩,
      ⟨"body", .vector (.scalar .uint8) 0x100000000⟩]).Accepted :=
    ⟨⟨⟨trivial, rfl⟩, ⟨trivial, rfl⟩, trivial⟩, rfl⟩
  have failed : (View.ofDefault (.container [⟨"notes", .list (.scalar .uint8) 1⟩,
      ⟨"body", .vector (.scalar .uint8) 0x100000000⟩])).encode =
        .error (.lengthExceedsMax 4294967300 4294967295) := rfl
  obtain ⟨value, held, encodes⟩ := Reachable.encode_fails_iff (.ofDefault accepted)
  refine ⟨failed, value, held, ?_⟩
  -- The serialization itself is short: an offset, the body and at most one byte of notes.
  have small (other : Value) (tree : Tree)
      (represents : (Schema.container [⟨"notes", .list (.scalar .uint8) 1⟩,
        ⟨"body", .vector (.scalar .uint8) 0x100000000⟩]).Represents other tree) :
      ((Schema.container [⟨"notes", .list (.scalar .uint8) 1⟩,
        ⟨"body", .vector (.scalar .uint8) 0x100000000⟩]).serialize other).length < 2 ^ 63 := by
    obtain ⟨members, nodes, rfl, each, _⟩ := represents
    obtain ⟨_, _⟩ := each.length_eq
    match members, nodes, each with
    | [notes, body], [_, _], ⟨first, second, _⟩ =>
      have filled := (Schema.admits_serialize _ body _ second).1 0x100000000 rfl
      obtain ⟨elements, _, rfl, bounded, holds, _⟩ := first
      have few : elements.length ≤ 1 := bounded
      have counted := (Schema.admits_elements (.scalar .uint8) elements holds.admitted).1
        (elements.length * 1) rfl
      -- The list adds its offset and its elements, and the body just its own bytes.
      have front : Piece.total ⟨true, (Schema.list (.scalar .uint8) 1).serialize
          (.sequence elements)⟩ = 4 + elements.length * 1 := congrArg (4 + ·) counted
      have back : Piece.total ⟨false, (Schema.vector (.scalar .uint8) 0x100000000).serialize
          body⟩ = 0x100000000 + 0 := congrArg (· + 0) filled
      have joined : ((Schema.container [⟨"notes", .list (.scalar .uint8) 1⟩,
          ⟨"body", .vector (.scalar .uint8) 0x100000000⟩]).serialize
            (.container [.sequence elements, body])).length =
              4 + elements.length * 1 + (0x100000000 + 0 + 0) := by
        rw [← front, ← back]
        exact (Piece.length_assemble_cons _ _).trans
          (congrArg _ (Piece.length_assemble_cons _ _))
      rw [joined]
      omega
  have represents := (Reachable.ofDefault accepted).canonical.represents_toValue held
  obtain ⟨start, starts, _, same⟩ := (encodes (small value _ represents)).names _ failed
  obtain ⟨rfl, _⟩ := ViewError.lengthExceedsMax.inj same
  exact starts

end Ssz.View
