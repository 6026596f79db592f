import Ssz.Proofs.Codec.Least
import Ssz.Proofs.Codec.Limit
import Ssz.Proofs.Codec.Starts
import Ssz.Proofs.View.RoundTrip

/-! Declared bounds: what the sizes and the limits of a schema say of the bytes it accepts. -/

namespace Ssz.View

/-- Some byte string of the least size is accepted, wherever offsets reach that far. -/
theorem exists_decode_minSize {schema : Schema} (accepted : schema.Accepted)
    (reach : schema.minSize ≤ maxOffset) :
    ∃ bytes view, bytes.length = schema.minSize ∧ decode schema bytes = .ok view := by
  -- A shortest serialization is too short for an offset to leave it.
  obtain ⟨value, tree, represents, least⟩ := Schema.exists_least schema accepted.members
  have fit : schema.OffsetsFit value := Schema.offsetsFit_of_length (least ▸ reach)
  refine ⟨schema.serialize value, ⟨schema, tree⟩, least, ?_⟩
  rw [decode, Schema.decode_complete schema accepted value tree represents fit]
  rfl

/--
Declared sizes are exact: a fixed size is not zero and is that of all accepted bytes, bytes accepted
without a fixed size have at least the least size, and some bytes of the least size are accepted.
-/
theorem decode_sizes {schema : Schema} (accepted : schema.Accepted) :
    (∀ size, schema.fixedSize = some size → 0 < size ∧
      ∀ (bytes : Bytes) (view : View), decode schema bytes = .ok view → bytes.length = size) ∧
    (schema.fixedSize = none →
      ∀ (bytes : Bytes) (view : View), decode schema bytes = .ok view →
        schema.minSize ≤ bytes.length) ∧
    (schema.minSize ≤ maxOffset →
      ∃ bytes view, bytes.length = schema.minSize ∧ decode schema bytes = .ok view) := by
  -- Accepted bytes serialize a value, and serializations keep to the sizes.
  have admitted (bytes : Bytes) (view : View) (read : decode schema bytes = .ok view) :
      schema.sizes.Admits bytes.length := by
    obtain ⟨value, _, represents, _, _, rfl⟩ := value_of_decode accepted read
    exact Schema.admits_serialize schema value view.tree represents
  refine ⟨?_, ?_, exists_decode_minSize accepted⟩
  · intro size fixed
    refine ⟨Schema.fixedSize_pos schema accepted size fixed, ?_⟩
    intro bytes view read
    exact (admitted bytes view read).1 size fixed
  · intro _ bytes view read
    exact (admitted bytes view read).2

/-- A number next to a bitlist takes seven bytes at least: its two, an offset and a sentinel. -/
theorem decode_sizes_bitlist :
    (Schema.container [⟨"id", .scalar .uint16⟩, ⟨"flags", .bitlist 9⟩]).minSize = 7 ∧
      ∃ bytes view, bytes.length = 7 ∧
        decode (.container [⟨"id", .scalar .uint16⟩, ⟨"flags", .bitlist 9⟩]) bytes = .ok view := by
  -- No offset leaves its reach in seven bytes, so the least size is attained.
  have accepted : (Schema.container [⟨"id", .scalar .uint16⟩, ⟨"flags", .bitlist 9⟩]).Accepted :=
    ⟨⟨trivial, show (Schema.bitlist 9).check = .ok () by decide, trivial⟩, rfl⟩
  have least :
      (Schema.container [⟨"id", .scalar .uint16⟩, ⟨"flags", .bitlist 9⟩]).minSize = 7 := rfl
  obtain ⟨bytes, view, sized, read⟩ := (decode_sizes accepted).2.2 (by rw [least]; decide)
  exact ⟨least, bytes, view, sized.trans least, read⟩

/-- What a list schema of another limit makes of bytes that hold a number of members. -/
structure GatedBy (schema : Schema) (limit count : Nat) (bytes : Bytes) (value : Value) :
    Prop where
  /-- Beyond the limit the bytes are refused for the number of members. -/
  refused : limit < count → decode schema bytes = .error (.lengthExceedsMax count limit)
  /-- Within the limit the bytes are accepted with the same value. -/
  same : count ≤ limit → ∃ view, decode schema bytes = .ok view ∧ view.toValue = .ok value

/-- Bytes are gated when their decoder refuses them for their number or builds their tree. -/
theorem gatedBy_of_decode {schema : Schema} (accepted : schema.Accepted) {limit count : Nat}
    {bytes : Bytes} {value : Value}
    (beyond : limit < count → schema.decode bytes = .error (.lengthExceedsMax count limit))
    (within : count ≤ limit → ∃ tree, schema.decode bytes = .ok tree ∧
      schema.Represents value tree) : GatedBy schema limit count bytes value where
  -- Decoding a view is decoding its tree, whose value is the one it represents.
  refused := by
    intro more
    rw [decode, beyond more]
    rfl
  same := by
    intro fewer
    obtain ⟨tree, built, represents⟩ := within fewer
    exact ⟨⟨schema, tree⟩, decode_eq_ok.mpr ⟨rfl, built⟩,
      Schema.valueOf_of_represents schema accepted value tree represents⟩

/--
Limits only gate acceptance: bytes that are accepted as a list or a bitlist under one limit are
refused under another just for the number of their members, or hold the same value.
-/
theorem decode_gated {more fewer : UInt64} :
    (∀ element : Schema, (Schema.list element more).Accepted →
      (Schema.list element fewer).Accepted → ∀ (bytes : Bytes) (view : View),
        decode (.list element more) bytes = .ok view → ∃ elements,
          view.toValue = .ok (.sequence elements) ∧
            GatedBy (.list element fewer) fewer.toNat elements.length bytes (.sequence elements)) ∧
    ((Schema.bitlist more).Accepted → (Schema.bitlist fewer).Accepted →
      ∀ (bytes : Bytes) (view : View), decode (.bitlist more) bytes = .ok view → ∃ bits,
        view.toValue = .ok (.bits bits) ∧
          GatedBy (.bitlist fewer) fewer.toNat bits.length bytes (.bits bits)) := by
  -- The tree under the first limit tells the value, and the decoder is then run again under the
  -- second.
  constructor
  · intro element accepted also bytes view read
    obtain ⟨own, built⟩ := decode_eq_ok.mp read
    obtain ⟨elements, represents, beyond, within⟩ := Schema.decode_list_limit accepted also built
    refine ⟨elements, ?_, gatedBy_of_decode also beyond within⟩
    rw [toValue, own]
    exact Schema.valueOf_of_represents _ accepted _ _ represents
  · intro accepted also bytes view read
    obtain ⟨own, built⟩ := decode_eq_ok.mp read
    obtain ⟨bits, represents, beyond, within⟩ := Schema.decode_bitlist_limit accepted also built
    refine ⟨bits, ?_, gatedBy_of_decode also beyond within⟩
    rw [toValue, own]
    exact Schema.valueOf_of_represents _ accepted _ _ represents

/-- Three choices, cut out by their offsets, pass where four are allowed, but not where two are. -/
theorem decode_gated_choices :
    (∃ view, decode (.list (.union [none, some (.scalar .uint8)]) 4)
        [12, 0, 0, 0, 17, 0, 0, 0, 21, 0, 0, 0, 1, 0, 0, 0, 7, 0, 0, 0, 0, 1, 0, 0, 0, 9] =
          .ok view ∧
      view.toValue =
        .ok (.sequence [.union 1 (some (.uint 7)), .union 0 none, .union 1 (some (.uint 9))])) ∧
    decode (.list (.union [none, some (.scalar .uint8)]) 2)
        [12, 0, 0, 0, 17, 0, 0, 0, 21, 0, 0, 0, 1, 0, 0, 0, 7, 0, 0, 0, 0, 1, 0, 0, 0, 9] =
      .error (.lengthExceedsMax 3 2) := by
  -- The first offset counts the members, so their number is known before any of them is read.
  have accepted : (Schema.list (.union [none, some (.scalar .uint8)]) 4).Accepted :=
    ⟨⟨⟨trivial, trivial⟩, rfl⟩, rfl⟩
  have also : (Schema.list (.union [none, some (.scalar .uint8)]) 2).Accepted :=
    ⟨⟨⟨trivial, trivial⟩, rfl⟩, rfl⟩
  obtain ⟨view, read, value⟩ : ∃ view, decode (.list (.union [none, some (.scalar .uint8)]) 4)
        [12, 0, 0, 0, 17, 0, 0, 0, 21, 0, 0, 0, 1, 0, 0, 0, 7, 0, 0, 0, 0, 1, 0, 0, 0, 9] =
          .ok view ∧
      view.toValue =
        .ok (.sequence [.union 1 (some (.uint 7)), .union 0 none, .union 1 (some (.uint 9))]) :=
    ⟨_, rfl, rfl⟩
  obtain ⟨elements, held, gated⟩ := decode_gated.1 _ accepted also _ _ read
  obtain rfl := Value.sequence.inj (Except.ok.inj (value.symm.trans held))
  exact ⟨⟨view, read, value⟩, gated.refused (by decide)⟩

end Ssz.View
