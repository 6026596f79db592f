import Ssz.Bytes

/-! The tokens of JSON text: reading them off the characters, and writing them back. -/

namespace Ssz

/-- A token of JSON text. -/
inductive JsonToken where
  | openBrace
  | closeBrace
  | openBracket
  | closeBracket
  | comma
  | colon
  | null
  | bool (bit : Bool)
  /-- A number without sign, fraction and exponent. -/
  | natural (number : Nat)
  /-- Any other number. -/
  | otherNumber
  /-- A string; none where it holds one half of a surrogate pair, so that it is no text. -/
  | string (text : Option String)
  /-- Characters that spell no token. -/
  | fault
  deriving DecidableEq, Repr

namespace JsonToken

/-- The characters that may stand between tokens. -/
def isBlank (char : Char) : Bool :=
  char = ' ' || char = '\n' || char = '\t' || char = '\r'

/-- The number that four hexadecimal digits spell. -/
def codeUnit? (a b c d : Char) : Option Nat := do
  return 4096 * (← hexValue? a) + 256 * (← hexValue? b) + 16 * (← hexValue? c)
    + (← hexValue? d)

/-- Whether a code unit is the first half of a surrogate pair. -/
def isHighSurrogate (unit : Nat) : Bool :=
  0xD800 ≤ unit && unit ≤ 0xDBFF

/-- Whether a code unit is the second half of a surrogate pair. -/
def isLowSurrogate (unit : Nat) : Bool :=
  0xDC00 ≤ unit && unit ≤ 0xDFFF

/-- The character that a surrogate pair stands for. -/
def pairedChar (high low : Nat) : Char :=
  Char.ofNat (0x10000 + 0x400 * (high - 0xD800) + (low - 0xDC00))

/-- The character that an escape of one letter stands for. -/
def escaped? : Char → Option Char
  | '"' => some '"'
  | '\\' => some '\\'
  | '/' => some '/'
  | 'b' => some '\x08'
  | 'f' => some '\x0c'
  | 'n' => some '\n'
  | 'r' => some '\r'
  | 't' => some '\t'
  | _ => none

/-- The code units of a string up to its closing quote, and the characters after it. -/
def lexString : List Char → Option (List Nat × List Char)
  | [] => none
  | '"' :: rest => some ([], rest)
  | '\\' :: 'u' :: a :: b :: c :: d :: rest => do
    let unit ← codeUnit? a b c d
    let (units, after) ← lexString rest
    return (unit :: units, after)
  | '\\' :: letter :: rest => do
    let char ← escaped? letter
    let (units, after) ← lexString rest
    return (char.toNat :: units, after)
  | char :: rest =>
    -- Control characters have to be escaped.
    if char.toNat < 0x20 then none
    else do
      let (units, after) ← lexString rest
      return (char.toNat :: units, after)

/-- The characters that code units stand for; none where one half of a pair stands alone. -/
def charsOfUnits : List Nat → Option (List Char)
  | [] => some []
  | [unit] =>
    if isHighSurrogate unit || isLowSurrogate unit then none else some [Char.ofNat unit]
  | unit :: next :: rest =>
    if isHighSurrogate unit then
      if isLowSurrogate next then (charsOfUnits rest).map (pairedChar unit next :: ·) else none
    else if isLowSurrogate unit then none
    else (charsOfUnits (next :: rest)).map (Char.ofNat unit :: ·)

/-- The text that code units stand for, if they are text. -/
def textOfUnits (units : List Nat) : Option String :=
  (charsOfUnits units).map String.ofList

/-- The number that decimal digits spell, after digits already read. -/
def decimal (read : Nat) (digits : List Char) : Nat :=
  digits.foldl (fun number digit => 10 * number + (digit.toNat - 48)) read

/-- One or more digits skipped. -/
def skipDigits (chars : List Char) : Option (List Char) :=
  match chars with
  | digit :: rest => if digit.isDigit then some (rest.dropWhile Char.isDigit) else none
  | [] => none

/-- A fraction skipped, where there is one, and whether there was. -/
def skipFraction : List Char → Option (Bool × List Char)
  | '.' :: rest => (skipDigits rest).map (true, ·)
  | chars => some (false, chars)

/-- An exponent skipped, where there is one, and whether there was. -/
def skipExponent : List Char → Option (Bool × List Char)
  | mark :: rest =>
    if mark = 'e' ∨ mark = 'E' then
      match rest with
      | '+' :: digits | '-' :: digits => (skipDigits digits).map (true, ·)
      | digits => (skipDigits digits).map (true, ·)
    else some (false, mark :: rest)
  | [] => some (false, [])

/-- A number that begins with the given digits of its integral part, and the characters after. -/
def lexFractional (integral : Nat) (chars : List Char) : Option (JsonToken × List Char) := do
  let (hasFraction, rest) ← skipFraction chars
  let (hasExponent, rest) ← skipExponent rest
  return (if hasFraction || hasExponent then otherNumber else natural integral, rest)

/-- A number without a sign, and the characters after it. -/
def lexNumber : List Char → Option (JsonToken × List Char)
  -- A leading zero is the whole integral part.
  | '0' :: rest => lexFractional 0 rest
  | digit :: rest =>
    if digit.isDigit then
      lexFractional (decimal 0 (digit :: rest.takeWhile Char.isDigit)) (rest.dropWhile Char.isDigit)
    else none
  | [] => none

/-- The token at the beginning of some characters, and the characters after it. -/
def lexToken : List Char → Option (JsonToken × List Char)
  | '\x7b' :: rest => some (openBrace, rest)
  | '\x7d' :: rest => some (closeBrace, rest)
  | '[' :: rest => some (openBracket, rest)
  | ']' :: rest => some (closeBracket, rest)
  | ',' :: rest => some (comma, rest)
  | ':' :: rest => some (colon, rest)
  | 'n' :: 'u' :: 'l' :: 'l' :: rest => some (null, rest)
  | 't' :: 'r' :: 'u' :: 'e' :: rest => some (bool true, rest)
  | 'f' :: 'a' :: 'l' :: 's' :: 'e' :: rest => some (bool false, rest)
  | '"' :: rest => (lexString rest).map fun (units, after) => (string (textOfUnits units), after)
  | '-' :: rest => (lexNumber rest).map fun (_, after) => (otherNumber, after)
  | chars => lexNumber chars

/-- The tokens of some characters, of which each step takes at least one, up to the first fault. -/
def lexAll : (steps : Nat) → List Char → List JsonToken
  | _, [] => []
  | 0, _ :: _ => [fault]
  | steps + 1, char :: rest =>
    if isBlank char then lexAll steps rest
    else
      match lexToken (char :: rest) with
      | some (token, after) => token :: lexAll steps after
      | none => [fault]

/-- The tokens of a text, up to the first characters that spell none. -/
def ofText (text : String) : List JsonToken :=
  let chars := text.toList
  lexAll chars.length chars

/-- A character inside a written string: quotes, backslashes and controls are escaped. -/
def writeChar (char : Char) : List Char :=
  match char with
  | '"' => ['\\', '"']
  | '\\' => ['\\', '\\']
  | '\x08' => ['\\', 'b']
  | '\x0c' => ['\\', 'f']
  | '\n' => ['\\', 'n']
  | '\r' => ['\\', 'r']
  | '\t' => ['\\', 't']
  | char =>
    if char.toNat < 0x20 then
      ['\\', 'u', '0', '0', hexDigit (char.toNat / 16), hexDigit (char.toNat % 16)]
    else [char]

/-- The characters that write a token. -/
def write : JsonToken → List Char
  | openBrace => ['\x7b']
  | closeBrace => ['\x7d']
  | openBracket => ['[']
  | closeBracket => [']']
  | comma => [',']
  | colon => [':']
  | null => ['n', 'u', 'l', 'l']
  | bool true => ['t', 'r', 'u', 'e']
  | bool false => ['f', 'a', 'l', 's', 'e']
  | natural number => Nat.toDigits 10 number
  | otherNumber => ['-', '0']
  | string (some text) => '"' :: text.toList.flatMap writeChar ++ ['"']
  | string none => ['"', '\\', 'u', 'd', '8', '0', '0', '"']
  | fault => ['?']

/-- The text of tokens, without blanks. -/
def toText (tokens : List JsonToken) : String :=
  String.ofList (tokens.flatMap write)

end JsonToken

end Ssz
