import Mintage.Bytes

/-! Hexadecimal text. Writing uses lower case; reading takes either case and works on the UTF-8 bytes
of the text, so that positions in error messages count bytes. -/

namespace Mintage.Hex

inductive Error where
  | oddLength
  | badDigit (byte : UInt8) (position : Nat)
  | wrongLength (expected actual : Nat)
deriving DecidableEq, Repr

def digit (value : Nat) : Char :=
  if value < 10 then Char.ofNat (48 + value) else Char.ofNat (87 + value)

def digits (byte : UInt8) : List Char :=
  [digit (byte.toNat / 16), digit (byte.toNat % 16)]

def encode (bytes : Bytes) : String :=
  String.ofList (bytes.flatMap digits)

def digitValue (byte : UInt8) : Option Nat :=
  let code := byte.toNat
  if 48 ≤ code ∧ code ≤ 57 then some (code - 48)
  else if 97 ≤ code ∧ code ≤ 102 then some (code - 87)
  else if 65 ≤ code ∧ code ≤ 70 then some (code - 55)
  else none

/-- Reads digits in pairs; `position` is the offset of the next one and `read` what came before, reversed. -/
def decodePairs (position : Nat) (read : Bytes) : Bytes → Except Error Bytes
  | high :: low :: rest =>
    match digitValue high, digitValue low with
    | some h, some l => decodePairs (position + 2) (UInt8.ofNat (16 * h + l) :: read) rest
    | some _, none => .error (.badDigit low (position + 1))
    | none, _ => .error (.badDigit high position)
  | _ => .ok read.reverse

/-- An odd length is reported before any bad digit. -/
def decode (text : String) : Except Error Bytes :=
  let bytes := Bytes.ofString text
  if bytes.length % 2 = 1 then .error .oddLength else decodePairs 0 [] bytes

/-- A number of at most 256 bits, with or without `0x` in front. Blanks between the digits are passed over
but count towards the parity of the length, which says whether the first digit has a partner; a last digit
without one is dropped. -/
def quantity? (text : String) : Option Nat := do
  let bytes := Bytes.ofString text
  let body := if [0x30, 0x78].isPrefixOf bytes then bytes.drop 2 else bytes
  guard (1 ≤ body.length ∧ body.length ≤ 64)
  let values ← (body.filter fun byte => !([0x20, 0x0d, 0x0a, 0x09].contains byte)).mapM digitValue
  let parity := body.length % 2
  return (values.take ((values.length + parity) / 2 * 2 - parity)).foldl (fun value digit => 16 * value + digit) 0

/-- Puts a digit behind a number. -/
def appendDigit? (value : Nat) (byte : UInt8) : Option Nat :=
  (digitValue byte).map (16 * value + ·)

/-- A word of thirty-two bits with as many digits as it likes, for which a plus is the only sign. -/
def word? (text : String) : Option UInt32 := do
  let bytes := Bytes.ofString text
  let body := if bytes.head? = some 0x2b then bytes.tail else bytes
  guard (body ≠ [])
  let value ← body.foldlM appendDigit? 0
  guard (value < UInt32.size)
  return .ofNat value

/-- The digits of a number, without leading zeros. -/
def ofNat (n : Nat) : String :=
  String.ofList (Nat.toDigits 16 n)

/-- The digits of a number, with leading zeros up to `width`. -/
def padded (width n : Nat) : String :=
  let short := Nat.toDigits 16 n
  String.ofList (List.replicate (width - short.length) '0' ++ short)

/-- The character with this code between single quotes, escaped unless it prints as itself. -/
def quoted (byte : UInt8) : String :=
  let code := byte.toNat
  let body :=
    if code = 0 then "\\0"
    else if code = 9 then "\\t"
    else if code = 10 then "\\n"
    else if code = 13 then "\\r"
    else if code = 39 then "\\\x27"
    else if code = 92 then "\\\\"
    else if code < 32 ∨ (127 ≤ code ∧ code ≤ 160) ∨ code = 173 then "\\u\x7b" ++ ofNat code ++ "\x7d"
    else String.singleton (Char.ofNat code)
  "\x27" ++ body ++ "\x27"

def Error.message : Error → String
  | .oddLength => "Odd number of digits"
  | .badDigit byte position => "Invalid character " ++ quoted byte ++ " at position " ++ toString position
  | .wrongLength expected actual => "expected " ++ toString expected ++ " bytes, got " ++ toString actual

end Mintage.Hex
