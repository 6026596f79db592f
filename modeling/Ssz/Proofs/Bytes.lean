import Mathlib.Algebra.Group.Nat.Defs
import Ssz.Bytes

/-! Laws of byte strings: numbers read back as their bytes, and joined pieces of one width. -/

namespace Ssz

/-- Reading back the digits gives the number reduced to the width written. -/
theorem ofLittleEndian_littleEndian (width value : Nat) :
    ofLittleEndian (littleEndian width value) = value % 256 ^ width := by
  -- The first digit is the remainder modulo 256, the others spell the quotient.
  induction width generalizing value with
  | zero => simp [littleEndian, ofLittleEndian, Nat.mod_one]
  | succ width ih =>
    have digit : (UInt8.ofNat value).toNat = value % 256 := by simp
    rw [littleEndian, ofLittleEndian, ih, digit, Nat.pow_succ', Nat.mod_mul]

/-- Bytes spell a number below the power of 256 that their count allows. -/
theorem ofLittleEndian_lt (bytes : Bytes) : ofLittleEndian bytes < 256 ^ bytes.length := by
  -- A digit is at most 255, so it cannot carry past the digits above it.
  induction bytes with
  | nil => simp [ofLittleEndian]
  | cons byte rest ih =>
    have digit : byte.toNat < 256 := byte.toNat_lt
    simp only [ofLittleEndian, List.length_cons, Nat.pow_succ]
    omega

/-- A number that fits in the width it is written at reads back unchanged. -/
theorem ofLittleEndian_littleEndian_of_lt {width value : Nat} (fits : value < 256 ^ width) :
    ofLittleEndian (littleEndian width value) = value := by
  rw [ofLittleEndian_littleEndian, Nat.mod_eq_of_lt fits]

/-- Writing the number that bytes spell, at their own width, gives those bytes back. -/
theorem littleEndian_ofLittleEndian (bytes : Bytes) :
    littleEndian bytes.length (ofLittleEndian bytes) = bytes := by
  -- The first digit is the remainder modulo 256, and the others are the quotient.
  induction bytes with
  | nil => rfl
  | cons byte rest ih =>
    have digit : byte.toNat < 256 := byte.toNat_lt
    have low : UInt8.ofNat (byte.toNat + 256 * ofLittleEndian rest) = byte := by
      apply UInt8.toNat_inj.mp
      simp
    have high : (byte.toNat + 256 * ofLittleEndian rest) / 256 = ofLittleEndian rest := by omega
    simp only [List.length_cons, ofLittleEndian, littleEndian, low, high, ih]

/-- Lists of one length that agree at each of their positions, read with a default, are equal. -/
theorem eq_of_getD {α : Type} {first second : List α} (default : α)
    (sized : first.length = second.length)
    (agree : ∀ i, i < first.length → first.getD i default = second.getD i default) :
    first = second := by
  -- Within the common length the default is never read.
  apply List.ext_getElem sized
  intro i inFirst inSecond
  simpa [List.getD_eq_getElem?_getD, inFirst, inSecond] using agree i inFirst

/-- A list is the start of a longer one that agrees with it at each of its positions. -/
theorem take_eq_of_getD {α : Type} {short long : List α} (default : α)
    (room : short.length ≤ long.length)
    (agree : ∀ i, i < short.length → long.getD i default = short.getD i default) :
    long.take short.length = short := by
  apply eq_of_getD default (List.length_take_of_le room)
  intro i within
  -- The cut leaves the positions before it as they are.
  have inside : i < short.length := Nat.lt_of_lt_of_le within (List.length_take_le _ _)
  rw [← agree i inside, List.getD_eq_getElem?_getD, List.getD_eq_getElem?_getD,
    List.getElem?_take_of_lt inside]

/-- Pieces of one width take up as many entries as their count says. -/
theorem length_flatten_of_width {α : Type} (width : Nat) {pieces : List (List α)}
    (sized : ∀ piece ∈ pieces, piece.length = width) :
    pieces.flatten.length = pieces.length * width := by
  -- Each piece adds one width, whatever it holds.
  induction pieces with
  | nil => simp
  | cons piece rest ih =>
    have head := sized piece (by simp)
    have tail := ih fun other member => sized other (by simp [member])
    simp only [List.flatten_cons, List.length_append, List.length_cons, head, tail]
    rw [Nat.add_mul, Nat.one_mul, Nat.add_comm]

/-- An entry of joined pieces of one width is found by the quotient and the remainder. -/
theorem getD_flatten_of_width {α : Type} (width : Nat) (positive : 0 < width)
    {pieces : List (List α)} (sized : ∀ piece ∈ pieces, piece.length = width) (default : α)
    (i : Nat) :
    pieces.flatten.getD i default = (pieces.getD (i / width) []).getD (i % width) default := by
  -- Either the first piece holds the entry, or the rest does, one width further on.
  induction pieces generalizing i with
  | nil => simp
  | cons piece rest ih =>
    have head := sized piece (by simp)
    have tail := ih fun other member => sized other (by simp [member])
    rw [List.flatten_cons]
    by_cases first : i < width
    · rw [Nat.div_eq_of_lt first, Nat.mod_eq_of_lt first]
      simp [List.getD_eq_getElem?_getD, List.getElem?_append, head, first]
    · obtain ⟨ahead, rfl⟩ := Nat.exists_eq_add_of_le (Nat.le_of_not_lt first)
      have quotient : (width + ahead) / width = ahead / width + 1 := by
        rw [Nat.add_div_left _ positive]
      have later : (piece ++ rest.flatten).getD (width + ahead) default =
          rest.flatten.getD ahead default := by
        simp [List.getD_eq_getElem?_getD, List.getElem?_append, head,
          Nat.not_lt.mpr (Nat.le_add_right width ahead)]
      rw [quotient, Nat.add_mod_left, later, tail ahead]
      simp [List.getD_eq_getElem?_getD]

/-- A list of a whole number of widths is made of pieces of that width. -/
theorem exists_pieces_of_width {α : Type} (width count : Nat) {entries : List α}
    (sized : entries.length = count * width) :
    ∃ pieces : List (List α), pieces.length = count ∧ (∀ piece ∈ pieces, piece.length = width) ∧
      pieces.flatten = entries := by
  -- Cut one width off the front, and the rest is a whole number of them again.
  induction count generalizing entries with
  | zero =>
    rw [Nat.zero_mul] at sized
    exact ⟨[], rfl, by simp, (List.length_eq_zero_iff.mp sized).symm⟩
  | succ count ih =>
    rw [Nat.add_mul, Nat.one_mul] at sized
    obtain ⟨rest, counted, each, joined⟩ := @ih (entries.drop width) (by simp [sized])
    refine ⟨entries.take width :: rest, by rw [List.length_cons, counted], ?_, ?_⟩
    · simp only [List.mem_cons, forall_eq_or_imp, List.length_take]
      exact ⟨by omega, each⟩
    · rw [List.flatten_cons, joined, List.take_append_drop]

end Ssz
