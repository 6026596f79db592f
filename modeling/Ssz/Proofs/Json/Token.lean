import Mathlib.Data.List.Chain
import Mathlib.Tactic.IntervalCases
import Ssz.Json.Token

/-! Tokens of JSON text: the characters written for tokens are read as these. -/

namespace Ssz.JsonToken

/-- Whether a token is a number, which only ends where something else begins. -/
def isNumber : JsonToken → Bool
  | natural _ | otherNumber => true
  | _ => false

/-- Whether a number that stands before some characters ends there. -/
def EndsNumber (chars : List Char) : Prop :=
  ∀ char ∈ chars.head?, char.isDigit = false ∧ char ≠ '.' ∧ char ≠ 'e' ∧ char ≠ 'E'

section Numbers

variable {rest : List Char} (ends : EndsNumber rest)

include ends

/-- A number without a fraction and an exponent ends with its integral part. -/
theorem lexFractional_of_ends (integral : Nat) :
    lexFractional integral rest = some (natural integral, rest) := by
  -- Neither a point nor an exponent follows, so both are skipped as absent.
  cases rest with
  | nil => rfl
  | cons char rest =>
    obtain ⟨_, point, small, large⟩ := ends char rfl
    have fraction : skipFraction (char :: rest) = some (false, char :: rest) := by
      rw [skipFraction]
      intro _ same
      exact point (List.cons.inj same).1
    have exponent : skipExponent (char :: rest) = some (false, char :: rest) := by
      simp [skipExponent, small, large]
    simp [lexFractional, fraction, exponent]

/-- A number is read as what its digits spell, if it does not begin with a superfluous zero. -/
theorem lexNumber_digits {digit : Char} {digits : List Char} (leading : digit ≠ '0')
    (all : ∀ char ∈ digit :: digits, char.isDigit = true) :
    lexNumber (digit :: digits ++ rest) = some (natural (decimal 0 (digit :: digits)), rest) := by
  obtain ⟨own, others⟩ := List.forall_mem_cons.mp all
  -- What follows the number does not begin with one more digit.
  have stop : rest.takeWhile Char.isDigit = [] ∧ rest.dropWhile Char.isDigit = rest := by
    cases rest with
    | nil => exact ⟨rfl, rfl⟩
    | cons char rest => simp [(ends char rfl).1]
  rw [List.cons_append, lexNumber]
  · rw [if_pos own, List.takeWhile_append_of_pos others,
      List.dropWhile_append_of_pos others, stop.1,
      stop.2, List.append_nil]
    exact lexFractional_of_ends ends _
  · exact leading

omit ends in
/-- The digits of a positive number do not begin with a zero. -/
theorem exists_toDigits {number : Nat} (positive : 0 < number) :
    ∃ digit digits, Nat.toDigits 10 number = digit :: digits ∧ digit ≠ '0' := by
  induction number using Nat.strongRecOn with
  | ind number ih =>
    rw [Nat.toDigits_eq_if (by decide)]
    split
    · rename_i small
      refine ⟨_, [], rfl, ?_⟩
      interval_cases number <;> decide
    · -- The first digit is that of the number without its last one.
      obtain ⟨digit, digits, same, leading⟩ := ih (number / 10) (by omega) (by omega)
      exact ⟨digit, digits ++ [(number % 10).digitChar], by rw [same]; rfl, leading⟩

/-- A natural number is read off its decimal digits. -/
theorem lexNumber_toDigits (number : Nat) :
    lexNumber (Nat.toDigits 10 number ++ rest) = some (natural number, rest) := by
  -- Zero is written as a single digit, and no other number begins with one.
  rcases Nat.eq_zero_or_pos number with rfl | positive
  · exact lexFractional_of_ends ends 0
  · obtain ⟨digit, digits, same, leading⟩ := exists_toDigits positive
    have all : ∀ char ∈ digit :: digits, char.isDigit = true := by
      rw [← same]
      exact fun char => Nat.isDigit_of_mem_toDigits (by decide) (by decide)
    have spelled : decimal 0 (digit :: digits) = number := by
      rw [← same]
      exact Nat.ofDigitChars_toDigits (by decide) (by decide)
    rw [same, lexNumber_digits ends leading all, spelled]

end Numbers

section Strings

/-- A control character is read off its escape with a code. -/
theorem codeUnit?_control {code : Nat} (small : code < 0x20) :
    codeUnit? '0' '0' (hexDigit (code / 16)) (hexDigit (code % 16)) = some code := by
  interval_cases code <;> rfl

/-- A character of a string is read as it was written, escaped or not. -/
theorem lexString_writeChar {more after : List Char} {units : List Nat}
    (read : lexString more = some (units, after)) (char : Char) :
    lexString (writeChar char ++ more) = some (char.toNat :: units, after) := by
  unfold writeChar
  split
  case h_8 quote backslash _ _ _ _ _ =>
    split
    · rename_i control
      simp [lexString, codeUnit?_control control, read]
    · -- Any other character stands for itself.
      rename_i printed
      rw [List.cons_append, List.nil_append, lexString, if_neg printed, read]
      · rfl
      · exact quote
      · exact fun _ _ _ _ _ same => absurd same backslash
      · exact fun _ _ same => absurd same backslash
  all_goals simp [lexString, escaped?, read]

/-- The characters of a string are read up to its closing quote. -/
theorem lexString_write (chars rest : List Char) :
    lexString (chars.flatMap writeChar ++ '"' :: rest) = some (chars.map Char.toNat, rest) := by
  -- The closing quote is the first one that is not escaped.
  induction chars with
  | nil => rfl
  | cons char chars ih =>
    rw [List.flatMap_cons, List.append_assoc]
    exact lexString_writeChar ih char

/-- A character is neither half of a surrogate pair. -/
theorem not_surrogate (char : Char) :
    isHighSurrogate char.toNat = false ∧ isLowSurrogate char.toNat = false := by
  -- The code points of characters leave out just the range of the surrogates.
  have valid := char.valid
  simp only [UInt32.isValidChar, Nat.isValidChar] at valid
  have same : char.toNat = char.val.toNat := rfl
  simp only [isHighSurrogate, isLowSurrogate, Bool.and_eq_false_iff, decide_eq_false_iff_not]
  omega

/-- The code units of characters are those of one character each. -/
theorem charsOfUnits_map (chars : List Char) :
    charsOfUnits (chars.map Char.toNat) = some chars := by
  -- A character is never a surrogate, so no two units are taken for a pair.
  induction chars with
  | nil => rfl
  | cons char chars ih =>
    obtain ⟨high, low⟩ := not_surrogate char
    cases chars with
    | nil => simp [charsOfUnits, high, low]
    | cons next chars =>
      rw [List.map_cons, List.map_cons] at *
      rw [charsOfUnits, ih]
      simp [high, low]

end Strings

section Tokens

variable {digit : Char} (isDigit : digit.isDigit = true)

include isDigit in
/-- A digit begins a number. -/
theorem lexToken_of_digit (more : List Char) :
    lexToken (digit :: more) = lexNumber (digit :: more) := by
  rw [lexToken]
  -- No character that begins another token is a digit.
  all_goals
    intro rest same
    obtain ⟨rfl, _⟩ := List.cons.inj same
    exact absurd isDigit (by decide)

include isDigit in
/-- A digit is no blank. -/
theorem not_blank_of_digit : isBlank digit = false := by
  simp only [isBlank, Bool.or_eq_false_iff, decide_eq_false_iff_not]
  refine ⟨⟨⟨?_, ?_⟩, ?_⟩, ?_⟩
  all_goals
    rintro rfl
    exact absurd isDigit (by decide)

/-- A natural number is written by digits, of which there is at least one. -/
theorem exists_digit (number : Nat) :
    ∃ digit digits, (natural number).write = digit :: digits ∧ digit.isDigit = true := by
  have some := @Nat.length_toDigits_pos 10 number
  obtain ⟨digit, digits, same⟩ := List.exists_cons_of_length_pos some
  exact ⟨digit, digits, same,
    @Nat.isDigit_of_mem_toDigits 10 number digit (by decide) (by decide) (by simp [same])⟩

/-- A token is read off the characters that write it, where a number ends behind them. -/
theorem lexToken_write {token : JsonToken} {rest : List Char} (sound : token ≠ fault)
    (ends : token.isNumber = true → EndsNumber rest) :
    lexToken (token.write ++ rest) = some (token, rest) := by
  -- The first character tells the kind of token, and only a number has to look beyond its own.
  cases token with
  | fault => exact absurd rfl sound
  | bool bit => cases bit <;> rfl
  | natural number =>
    obtain ⟨digit, digits, same, isDigit⟩ := exists_digit number
    have read := lexNumber_toDigits (ends rfl) number
    rw [← write, same, List.cons_append] at read
    rw [same, List.cons_append, lexToken_of_digit isDigit, read]
  | otherNumber =>
    show (lexFractional 0 rest).map _ = _
    rw [lexFractional_of_ends (ends rfl)]
    rfl
  | string text =>
    cases text with
    | none => rfl
    | some text =>
      have read := lexString_write text.toList rest
      simp [write, lexToken, read, textOfUnits, charsOfUnits_map]
  | _ => rfl

/-- A written token begins with something else than a blank. -/
theorem exists_write (token : JsonToken) :
    ∃ char more, token.write = char :: more ∧ isBlank char = false := by
  -- A number begins with a digit, and every other token with a letter or a sign.
  cases token with
  | natural number =>
    obtain ⟨digit, digits, same, isDigit⟩ := exists_digit number
    exact ⟨digit, digits, same, not_blank_of_digit isDigit⟩
  | bool bit => cases bit <;> exact ⟨_, _, rfl, rfl⟩
  | string text => cases text <;> exact ⟨_, _, rfl, rfl⟩
  | _ => exact ⟨_, _, rfl, rfl⟩

/-- A number ends where another token than a number is written behind it. -/
theorem endsNumber_write {token : JsonToken} (other : token.isNumber = false) (rest : List Char) :
    EndsNumber (token.write ++ rest) := by
  -- No other token begins with a digit, a point or the letter of an exponent.
  cases token with
  | natural number => cases other
  | otherNumber => cases other
  | bool bit => cases bit <;> simp [EndsNumber, write]
  | string text => cases text <;> simp [EndsNumber, write]
  | _ => simp [EndsNumber, write]

/-- Tokens that can be told apart in their text, as no two numbers stand side by side. -/
def Legible (tokens : List JsonToken) : Prop :=
  fault ∉ tokens ∧
    tokens.IsChain fun first second => first.isNumber = true → second.isNumber = false

/-- Legible tokens are read off their text, in as many steps as this has characters. -/
theorem lexAll_write {tokens : List JsonToken} (legible : Legible tokens) {steps : Nat}
    (enough : (tokens.flatMap write).length ≤ steps) :
    lexAll steps (tokens.flatMap write) = tokens := by
  induction tokens generalizing steps with
  | nil => cases steps <;> rfl
  | cons token rest ih =>
    obtain ⟨sound, apart⟩ := legible
    obtain ⟨own, others⟩ := not_or.mp (List.mem_cons.not.mp sound)
    have ends : token.isNumber = true → EndsNumber (rest.flatMap write) := by
      intro number
      cases rest with
      | nil => exact nofun
      | cons next rest => exact endsNumber_write (apart.rel number) _
    have read := lexToken_write (Ne.symm own) ends
    obtain ⟨char, more, same, solid⟩ := exists_write token
    rw [List.flatMap_cons, same, List.cons_append] at enough ⊢
    rw [same, List.cons_append] at read
    -- The first step takes all characters of the token, and the others go on behind it.
    cases steps with
    | zero => cases enough
    | succ steps =>
      rw [lexAll, solid, if_neg (by decide), read]
      rw [List.length_cons, List.length_append] at enough
      exact congrArg _ (ih ⟨others, apart.tail⟩ (by omega))

/-- Legible tokens are read off their text. -/
theorem ofText_toText {tokens : List JsonToken} (legible : Legible tokens) :
    ofText (toText tokens) = tokens := by
  simp only [ofText, toText, String.toList_ofList]
  exact lexAll_write legible (Nat.le_refl _)

end Tokens

end Ssz.JsonToken
