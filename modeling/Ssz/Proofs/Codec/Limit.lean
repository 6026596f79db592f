import Ssz.Proofs.Codec.Accepts

/-! Limits of sequences: the number of elements is the same whatever limit it is held to. -/

namespace Ssz

/-- Too many elements are refused with their number and the limit. -/
theorem Count.check_atMost_of_lt {max count : Nat} (beyond : max < count) :
    (Count.atMost max).check count = .error (.lengthExceedsMax count max) := by
  rw [check, if_pos beyond]

section Count

variable {element : Schema} {bytes : Bytes} {expected other : Count} {spans : List Span}

/-- Elements of one size that were cut out are recounted for any other expectation. -/
theorem fixedSpans_recount {size : Nat} (read : fixedSpans bytes size expected = .ok spans) :
    fixedSpans bytes size other = other.check spans.length >>= fun _ => .ok spans := by
  unfold fixedSpans at read ⊢
  split at read
  · cases read
  · rename_i whole
    simp only [bind_eq_ok, pure_eq_ok, Except.ok.injEq] at read
    obtain ⟨⟨⟩, _, rfl⟩ := read
    -- The number is what the input divides into, whoever asks.
    rw [if_neg whole, List.length_map, List.length_range]
    rfl

/-- Elements of varying size that were cut out are recounted for any other expectation. -/
theorem variableSpans_recount (read : variableSpans bytes expected = .ok spans) :
    variableSpans bytes other = other.check spans.length >>= fun _ => .ok spans := by
  obtain ⟨count, offsets, _, table, cut, room, exact⟩ := table_of_variableSpans read
  -- The table has as many entries as there are elements, and each entry starts a span.
  have counted : spans.length = count := by
    rw [length_spansOfOffsets cut, length_readTable table]
  rw [counted]
  exact variableSpans_of_table table cut room exact

/-- Elements that were cut out are recounted for any other expectation. -/
theorem elementSpans_recount (read : elementSpans element bytes expected = .ok spans) :
    elementSpans element bytes other = other.check spans.length >>= fun _ => .ok spans := by
  -- Both ways to cut out elements look at the expected number only to check it.
  unfold elementSpans at read ⊢
  cases fixed : element.fixedSize with
  | some size =>
    rw [fixed] at read
    exact fixedSpans_recount read
  | none =>
    rw [fixed] at read
    exact variableSpans_recount read

/--
A decoded sequence has a number of elements, which comes up before anything else can be wrong: where
another expectation refuses that number, the sequence is refused with that very error.
-/
theorem decodeElements_recount {decode : Bytes → Except DecodeError Tree} {depth : Nat}
    {content : Tree} {length : UInt64}
    (read : decodeElements element decode bytes depth expected = .ok (content, length)) :
    ∃ count, expected.check count = .ok () ∧ length = UInt64.ofNat count ∧
      ∀ (other : Count) (level : Nat) (fault : DecodeError), other.check count = .error fault →
        decodeElements element decode bytes level other = .error fault := by
  cases own : element.scalar? with
  | some type =>
    simp only [decodeElements, own] at read ⊢
    split at read
    · cases read
    rename_i whole
    obtain ⟨⟨⟩, checked, read⟩ := bind_eq_ok.mp read
    refine ⟨bytes.length / type.byteLength, checked, ?_, ?_⟩
    · -- Both ways on, with and without a check of truth values, store the number.
      split at read
      · obtain ⟨⟨⟩, _, read⟩ := bind_eq_ok.mp read
        obtain ⟨_, _, built⟩ := bind_eq_ok.mp read
        exact (congrArg Prod.snd (Except.ok.inj built)).symm
      · obtain ⟨_, _, built⟩ := bind_eq_ok.mp read
        exact (congrArg Prod.snd (Except.ok.inj built)).symm
    · intro other level fault refused
      rw [if_neg whole, refused, error_bind]
  | none =>
    rw [decodeElements_of_spans own] at read
    obtain ⟨spans, cut, read⟩ := bind_eq_ok.mp read
    obtain ⟨_, _, read⟩ := bind_eq_ok.mp read
    obtain ⟨_, _, built⟩ := bind_eq_ok.mp read
    refine ⟨spans.length, ?_, (congrArg Prod.snd (Except.ok.inj built)).symm, ?_⟩
    · -- The expectation that the sequence was read under was met by the number.
      have again : elementSpans element bytes expected =
          expected.check spans.length >>= fun _ => .ok spans := elementSpans_recount cut
      rw [cut] at again
      obtain ⟨⟨⟩, checked, _⟩ := bind_eq_ok.mp again.symm
      exact checked
    · intro other level fault refused
      rw [decodeElements_of_spans own, elementSpans_recount cut, refused, error_bind, error_bind]

end Count

/-- Elements that a content tree holds are held by one of any other depth. -/
theorem Tree.HoldsElements.atDepth {element : Schema} {elements : List Value} {depth : Nat}
    {content : Tree} (holds : HoldsElements element element.Represents elements depth content)
    (level : Nat) :
    ∃ other, HoldsElements element element.Represents elements level other := by
  -- The pieces or the nodes are the same for every depth, and only the padding differs.
  cases own : element.scalar? with
  | some type =>
    obtain ⟨pieces, spelled, same, _⟩ := (holdsElements_packed own).mp holds
    exact ⟨_, (holdsElements_packed own).mpr ⟨pieces, spelled, same, rfl⟩⟩
  | none =>
    obtain ⟨nodes, each, _⟩ := (holdsElements_subtrees own).mp holds
    exact ⟨_, (holdsElements_subtrees own).mpr ⟨nodes, each, rfl⟩⟩

namespace Schema

variable {bytes : Bytes}

/-- A list has no length to fail: any number of bytes passes, the limit being on elements. -/
theorem checkLength_list (element : Schema) (maxLength : UInt64) (bytes : Bytes) :
    checkLength (.list element maxLength) bytes = .ok () :=
  checkLength_eq_ok.mpr ⟨by simp [sizes, Sizes.ofLeast], Nat.zero_le _⟩

/--
A list decoded under one limit has as many elements under any other: beyond that one it is refused
for their number, and within it the same elements are held.
-/
theorem decode_list_limit {element : Schema} {more fewer : UInt64}
    (accepted : (list element more).Accepted) (also : (list element fewer).Accepted) {tree : Tree}
    (read : (list element more).decode bytes = .ok tree) :
    ∃ elements, (list element more).Represents (.sequence elements) tree ∧
      (fewer.toNat < elements.length → (list element fewer).decode bytes =
        .error (.lengthExceedsMax elements.length fewer.toNat)) ∧
      (elements.length ≤ fewer.toNat → ∃ other, (list element fewer).decode bytes = .ok other ∧
        (list element fewer).Represents (.sequence elements) other) := by
  simp only [Schema.decode, checkLength_list, ok_bind, bind_eq_ok, pure_eq_ok, Except.ok.injEq]
    at read
  obtain ⟨⟨content, length⟩, read, rfl⟩ := read
  obtain ⟨count, checked, stored, refuse⟩ := decodeElements_recount read
  obtain ⟨elements, bounded, rfl, holds, rfl, each, fit⟩ :=
    decodeElements_sound accepted.depth_lt
      (fun count checked => list_fits element (Count.check_atMost.mp checked))
      (fixedSize_pos element accepted.1) (decode_sound element accepted.1) read
  rw [Count.check_atMost] at bounded checked
  -- The number that came up for the check is the one that was stored.
  have counted : elements.length = count := by
    rw [← toNat_ofNat_of_le_word bounded, stored, toNat_ofNat_of_le_word checked]
  refine ⟨elements, ⟨elements, content, rfl, bounded, holds, rfl⟩, ?_, ?_⟩
  · intro beyond
    rw [counted] at beyond ⊢
    have refused := refuse (.atMost fewer.toNat) (list element fewer).depth _
      (Count.check_atMost_of_lt beyond)
    simp only [Schema.decode, checkLength_list, ok_bind, refused, error_bind]
  · intro within
    -- The content moves to the depth of the other limit, and its serialization stays.
    obtain ⟨other, held⟩ := holds.atDepth (list element fewer).depth
    have represents : (list element fewer).Represents (.sequence elements)
        (other.withLength (UInt64.ofNat elements.length)) :=
      ⟨elements, other, rfl, within, held, rfl⟩
    exact ⟨_, decode_complete (list element fewer) also _ _ represents ⟨each, fit⟩, represents⟩

/--
A bitlist decoded under one limit has as many bits under any other: beyond that one it is refused
for their number, and within it the same bits are held.
-/
theorem decode_bitlist_limit {more fewer : UInt64} (accepted : (bitlist more).Accepted)
    (also : (bitlist fewer).Accepted) {tree : Tree}
    (read : (bitlist more).decode bytes = .ok tree) :
    ∃ bits, (bitlist more).Represents (.bits bits) tree ∧
      (fewer.toNat < bits.length → (bitlist fewer).decode bytes =
        .error (.lengthExceedsMax bits.length fewer.toNat)) ∧
      (bits.length ≤ fewer.toNat → ∃ other, (bitlist fewer).decode bytes = .ok other ∧
        (bitlist fewer).Represents (.bits bits) other) := by
  -- The bits marked by their sentinel are the input, whatever the limit.
  obtain ⟨value, represents, rfl, _⟩ := decode_sound (bitlist more) accepted bytes tree read
  obtain ⟨bits, rfl, bounded, rfl⟩ := represents
  refine ⟨bits, ⟨bits, rfl, bounded, rfl⟩, ?_, ?_⟩
  · intro beyond
    rw [serialize, Schema.decode, decodeBitlist_marked, if_pos beyond]
  · intro within
    have again : (bitlist fewer).Represents (.bits bits)
        ((Tree.ofBytes (bitlist fewer).depth (packBits bits)).withLength
          (UInt64.ofNat bits.length)) := ⟨bits, rfl, within, rfl⟩
    exact ⟨_, decode_complete (bitlist fewer) also _ _ again trivial, again⟩

end Schema

end Ssz
