/-! Byte strings: little-endian numbers and hexadecimal text. -/

namespace Ssz

/-- A byte string, first byte first. -/
abbrev Bytes := List UInt8

/-- The lowest `width` base-256 digits of a number, least significant first. -/
def littleEndian : (width : Nat) → (value : Nat) → Bytes
  | 0, _ => []
  | width + 1, value => UInt8.ofNat value :: littleEndian width (value / 256)

/-- The number whose base-256 digits, least significant first, are the given bytes. -/
def ofLittleEndian : Bytes → Nat
  | [] => 0
  | byte :: rest => byte.toNat + 256 * ofLittleEndian rest

/-- A little-endian number occupies exactly the width asked for. -/
@[simp] theorem littleEndian_length (width value : Nat) :
    (littleEndian width value).length = width := by
  -- Each step writes one byte and leaves one place fewer.
  induction width generalizing value with
  | zero => rfl
  | succ width ih => simp [littleEndian, ih]

/-- The bytes from position `start` up to, but not including, position `stop`. -/
def Bytes.slice (bytes : Bytes) (start stop : Nat) : Bytes :=
  (bytes.drop start).take (stop - start)

/-- The lowercase hexadecimal digit of a number below sixteen. -/
def hexDigit (value : Nat) : Char :=
  if value < 10 then Char.ofNat (48 + value) else Char.ofNat (87 + value)

/-- Two lowercase hexadecimal digits, high half first. -/
def hexByte (byte : UInt8) : List Char :=
  [hexDigit (byte.toNat / 16), hexDigit (byte.toNat % 16)]

/-- Lowercase hexadecimal text without a leading marker, two digits a byte. -/
def Bytes.toHex (bytes : Bytes) : String :=
  String.ofList (bytes.flatMap hexByte)

/-- The value of a hexadecimal digit of either case. -/
def hexValue? (digit : Char) : Option Nat :=
  if '0' ≤ digit ∧ digit ≤ '9' then some (digit.toNat - 48)
  else if 'a' ≤ digit ∧ digit ≤ 'f' then some (digit.toNat - 87)
  else if 'A' ≤ digit ∧ digit ≤ 'F' then some (digit.toNat - 55)
  else none

/-- The bytes spelled by pairs of hexadecimal digits, appended to those already read. -/
def ofHexDigits? (read : Array UInt8) : List Char → Option Bytes
  | [] => some read.toList
  | [_] => none
  | high :: low :: rest =>
    match hexValue? high, hexValue? low with
    | some h, some l => ofHexDigits? (read.push (UInt8.ofNat (16 * h + l))) rest
    | _, _ => none

/-- The bytes that a hexadecimal text spells, when it is one. -/
def Bytes.ofHex? (text : String) : Option Bytes :=
  ofHexDigits? #[] text.toList

end Ssz
