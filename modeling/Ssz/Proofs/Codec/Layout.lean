import Ssz.Codec.Encode
import Ssz.Proofs.Bytes
import Ssz.Proofs.Checked

/-! The layout of composites: inline members and offsets first, then the variable members. -/

namespace Ssz

/-- A serialized member of a composite, and whether it is reached by an offset. -/
structure Piece where
  isVariable : Bool
  bytes : Bytes

namespace Piece

/-- The number of bytes that a piece takes up in the fixed part. -/
def width (piece : Piece) : Nat :=
  if piece.isVariable then bytesPerOffset else piece.bytes.length

/-- The size of the fixed part of a composite. -/
def fixedEnd : List Piece → Nat
  | [] => 0
  | piece :: rest => piece.width + fixedEnd rest

/-- Where the variable pieces start, the first of them at a position. -/
def starts (position : Nat) : List Piece → List Nat
  | [] => []
  | piece :: rest =>
    if piece.isVariable then position :: starts (position + piece.bytes.length) rest
    else starts position rest

/-- The fixed part of a composite whose variable pieces start at a position. -/
def front (position : Nat) : List Piece → Bytes
  | [] => []
  | piece :: rest =>
    if piece.isVariable then
      littleEndian bytesPerOffset position ++ front (position + piece.bytes.length) rest
    else piece.bytes ++ front position rest

/-- The variable pieces of a composite, in order. -/
def back : List Piece → Bytes
  | [] => []
  | piece :: rest => if piece.isVariable then piece.bytes ++ back rest else back rest

/-- The serialization of a composite made of pieces. -/
def assemble (pieces : List Piece) : Bytes :=
  front (fixedEnd pieces) pieces ++ back pieces

/-- Every variable piece of a composite starts within the reach of a four-byte offset. -/
def OffsetsFit (pieces : List Piece) : Prop :=
  ∀ start ∈ starts (fixedEnd pieces) pieces, start ≤ maxOffset

/-- The fixed part is as long as the widths of the pieces say. -/
@[simp] theorem length_front (position : Nat) (pieces : List Piece) :
    (front position pieces).length = fixedEnd pieces := by
  induction pieces generalizing position with
  | nil => rfl
  | cons piece rest ih =>
    rw [front, fixedEnd, width]
    -- An offset has four bytes, and an inline piece has its own.
    split
    · simp [ih]
    · simp [ih]

/-- A composite is as long as its fixed part and its variable pieces together. -/
@[simp] theorem length_assemble (pieces : List Piece) :
    (assemble pieces).length = fixedEnd pieces + (back pieces).length := by
  rw [assemble, List.length_append, length_front]

section Inline

variable {pieces : List Piece} (inline : ∀ piece ∈ pieces, piece.isVariable = false)

include inline

/-- Pieces that are all inline have no offsets. -/
theorem starts_inline (position : Nat) : starts position pieces = [] := by
  induction pieces with
  | nil => rfl
  | cons piece rest ih =>
    rw [starts, if_neg (by simp [inline piece]),
      ih fun other member => inline other (by simp [member])]

/-- Pieces that are all inline are joined in the fixed part. -/
theorem front_inline (position : Nat) : front position pieces = (pieces.map bytes).flatten := by
  -- No piece stands behind an offset, so each one is written out where it is.
  induction pieces with
  | nil => rfl
  | cons piece rest ih =>
    rw [front, if_neg (by simp [inline piece]),
      ih fun other member => inline other (by simp [member]),
      List.map_cons, List.flatten_cons]

/-- Pieces that are all inline leave nothing for after the fixed part. -/
theorem back_inline : back pieces = [] := by
  induction pieces with
  | nil => rfl
  | cons piece rest ih =>
    rw [back, if_neg (by simp [inline piece]),
      ih fun other member => inline other (by simp [member])]

/-- Pieces that are all inline are simply joined. -/
theorem assemble_inline : assemble pieces = (pieces.map bytes).flatten := by
  rw [assemble, front_inline inline, back_inline inline, List.append_nil]

/-- Pieces that are all inline always fit. -/
theorem offsetsFit_inline : OffsetsFit pieces := by
  rw [OffsetsFit, starts_inline inline]
  nofun

end Inline

end Piece

open Piece

/-- A part of a composite serializes to a piece. -/
def Part.Yields (part : Part) (piece : Piece) : Prop :=
  part.isVariable = piece.isVariable ∧ part.bytes = .ok piece.bytes

/-- Parts are laid out exactly when each serializes to a piece and all offsets fit. -/
theorem layOut_eq_ok {parts : List Part} {position : Nat} {result : Bytes × Bytes} :
    layOut position parts = .ok result ↔
      ∃ pieces, List.Forall₂ Part.Yields parts pieces ∧
        (∀ start ∈ starts position pieces, start ≤ maxOffset) ∧
        (front position pieces, back pieces) = result := by
  -- The induction follows the parts, each variable one moving the next start on.
  induction parts generalizing position result with
  | nil => simp [layOut, starts, front, back]
  | cons part rest ih =>
    rw [layOut]
    cases kind : part.isVariable with
    | true =>
      -- An offset past the greatest one stops the encoder, and so it breaks the bound.
      by_cases far : maxOffset < position
      · simp only [far, if_true, reduceCtorEq, false_iff]
        rintro ⟨_, each, fit, _⟩
        cases each with
        | @cons _ piece _ pieces head _ =>
          have same : piece.isVariable = true := head.1 ▸ kind
          have := fit position (by simp [starts, same])
          omega
      · simp only [far, if_true, if_false, bind_eq_ok, pure_eq_ok, Except.ok.injEq, Prod.exists]
        constructor
        · rintro ⟨bytes, known, ahead, behind, laid, rfl⟩
          obtain ⟨pieces, each, fit, same⟩ := ih.mp laid
          obtain ⟨rfl, rfl⟩ := Prod.mk.inj same
          refine ⟨⟨true, bytes⟩ :: pieces, .cons ⟨kind, known⟩ each, ?_, by simp [front, back]⟩
          simpa [starts] using ⟨Nat.le_of_not_lt far, fit⟩
        · rintro ⟨_, each, fit, rfl⟩
          cases each with
          | @cons _ piece _ pieces head tail =>
            have same : piece.isVariable = true := head.1 ▸ kind
            simp only [starts, same, if_true, List.mem_cons, forall_eq_or_imp] at fit
            exact ⟨piece.bytes, head.2, _, _, ih.mpr ⟨pieces, tail, fit.2, rfl⟩,
              by simp [front, back, same]⟩
    | false =>
      simp only [Bool.false_eq_true, if_false, bind_eq_ok, pure_eq_ok, Except.ok.injEq, Prod.exists]
      constructor
      · rintro ⟨bytes, known, ahead, behind, laid, rfl⟩
        obtain ⟨pieces, each, fit, same⟩ := ih.mp laid
        obtain ⟨rfl, rfl⟩ := Prod.mk.inj same
        exact ⟨⟨false, bytes⟩ :: pieces, .cons ⟨kind, known⟩ each, by simpa [starts] using fit,
          by simp [front, back]⟩
      · rintro ⟨_, each, fit, rfl⟩
        cases each with
        | @cons _ piece _ pieces head tail =>
          have same : piece.isVariable = false := head.1 ▸ kind
          simp only [starts, same, Bool.false_eq_true, if_false] at fit
          exact ⟨piece.bytes, head.2, _, _, ih.mpr ⟨pieces, tail, fit, rfl⟩,
            by simp [front, back, same]⟩

/-- Parts with a fixed part of the right size are joined into the composite of their pieces. -/
theorem joinParts_eq_ok {parts : List Part} {fixedSize : Nat} {bytes : Bytes}
    (sized : ∀ pieces, List.Forall₂ Part.Yields parts pieces → fixedEnd pieces = fixedSize) :
    joinParts fixedSize parts = .ok bytes ↔
      ∃ pieces, List.Forall₂ Part.Yields parts pieces ∧ OffsetsFit pieces ∧
        assemble pieces = bytes := by
  simp only [joinParts, bind_eq_ok, pure_eq_ok, Except.ok.injEq, Prod.exists, layOut_eq_ok]
  constructor
  · rintro ⟨_, _, ⟨pieces, each, fit, same⟩, rfl⟩
    obtain ⟨rfl, rfl⟩ := Prod.mk.inj same
    -- The first variable piece starts where the fixed part ends.
    have whole := sized pieces each
    exact ⟨pieces, each, by rwa [OffsetsFit, whole], by rw [assemble, whole]⟩
  · rintro ⟨pieces, each, fit, rfl⟩
    have whole := sized pieces each
    exact ⟨_, _, ⟨pieces, each, whole ▸ fit, rfl⟩, by rw [assemble, whole]⟩

/-- Parts of which it is known when they yield certain pieces are joined exactly then. -/
theorem joinParts_of_yields {parts : List Part} {pieces : List Piece} {fixedSize : Nat}
    {bytes : Bytes} {fits : Prop}
    (yields : ∀ other, List.Forall₂ Part.Yields parts other ↔ fits ∧ pieces = other)
    (sized : fixedEnd pieces = fixedSize) :
    joinParts fixedSize parts = .ok bytes ↔
      (fits ∧ OffsetsFit pieces) ∧ assemble pieces = bytes := by
  rw [joinParts_eq_ok]
  · -- The pieces are known, so a join of some pieces is a join of these.
    simp only [yields]
    constructor
    · rintro ⟨_, ⟨known, rfl⟩, fit, same⟩
      exact ⟨⟨known, fit⟩, same⟩
    · rintro ⟨⟨known, fit⟩, same⟩
      exact ⟨_, ⟨known, rfl⟩, fit, same⟩
  · intro other each
    obtain ⟨_, rfl⟩ := (yields other).mp each
    exact sized

end Ssz
