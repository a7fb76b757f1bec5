import Mintage.Json
import Mintage.Text.Decimal

/-! Numbers in JSON text. A whole number that fits a signed or an unsigned word is exact; all others are
floats. A float is made from the first digits, as many as fit a word, in one step of floating point, so it
can miss the nearest float by a unit in the last place. -/

namespace Mintage.Json

/-- Puts a digit behind those of a word, if the word can hold it. -/
def appendDigit? (significand : Nat) (digit : Char) : Option Nat :=
  let next := 10 * significand + (digit.toNat - 48)
  if next < UInt64.size then some next else none

/-- A word of digits before the point, and how many more there are from the first that does not fit. -/
def wholeDigits (significand : Nat) : List Char → Nat × Nat
  | [] => (significand, 0)
  | digit :: rest =>
    match appendDigit? significand digit with
    | some next => wholeDigits next rest
    | none => (significand, rest.length + 1)

/-- A word with the digits after the point behind it, and how many these are; the first that does not fit
ends them. -/
def fractionDigits (significand places : Nat) : List Char → Nat × Nat
  | [] => (significand, places)
  | digit :: rest =>
    match appendDigit? significand digit with
    | some next => fractionDigits next (places + 1) rest
    | none => (significand, places)

/-- The greatest power of ten that a float holds. -/
def maxPower : Nat := 308

def powerOfTen (exponent : Nat) : Float :=
  Float.ofScientific 1 false exponent

/-- Divides by ten to the `places`. -/
def shrink (size : Float) (places : Nat) : Float :=
  if places ≤ maxPower then size / powerOfTen places
  else if size == 0 then size
  else shrink (size / powerOfTen maxPower) (places - maxPower)
termination_by places
decreasing_by
  unfold maxPower at *
  omega

/-- A word times ten to the `exponent`, unless that is too much for a float. -/
def scale? (significand : Nat) (exponent : Int) : Option Float :=
  let size := (UInt64.ofNat significand).toFloat
  if exponent < 0 then some (shrink size exponent.natAbs)
  else if exponent ≤ maxPower then
    let product := size * powerOfTen exponent.toNat
    if product.isInf then none else some product
  else if size == 0 then some size
  else none

/-- A number without point and exponent. Below every signed word there are only floats, and minus zero is
one. -/
def ofWhole (negative : Bool) (significand : Nat) : Json :=
  if !negative then .int significand
  else if 1 ≤ significand ∧ significand ≤ 0x8000000000000000 then .int (-significand)
  else .float (-(UInt64.ofNat significand).toFloat)

/-- The digits after a point, none if there is no point. -/
def fraction? : List Char → Option (List Char × List Char)
  | '.' :: rest =>
    let (digits, rest) := rest.span Char.isDigit
    if digits.isEmpty then none else some (digits, rest)
  | rest => some ([], rest)

def signedExponent? (negative : Bool) (text : List Char) : Option (Int × List Char) := do
  let (digits, rest) := text.span Char.isDigit
  let size ← Text.digits? digits
  return (if negative then -(size : Int) else size, rest)

/-- The exponent, zero if there is none. -/
def exponent? : List Char → Option (Int × List Char)
  | 'e' :: '-' :: rest | 'E' :: '-' :: rest => signedExponent? true rest
  | 'e' :: '+' :: rest | 'E' :: '+' :: rest => signedExponent? false rest
  | 'e' :: rest | 'E' :: rest => signedExponent? false rest
  | rest => some (0, rest)

/-- Digits before the point: one at least, and no zero before others. -/
def whole? (text : List Char) : Option (List Char × List Char) :=
  match text.span Char.isDigit with
  | ([], _) | ('0' :: _ :: _, _) => none
  | parts => some parts

/-- Reads a number whose sign has been read. -/
def number? (negative : Bool) (text : List Char) : Option (Json × List Char) := do
  let (whole, rest) ← whole? text
  let (significand, dropped) := wholeDigits 0 whole
  let marked := rest.head?.any fun c => c == '.' || c == 'e' || c == 'E'
  if dropped = 0 && !marked then return (ofWhole negative significand, rest)
  let (fraction, rest) ← fraction? rest
  let (significand, places) := fractionDigits significand 0 fraction
  let (exponent, rest) ← exponent? rest
  let size ← scale? significand (dropped - places + exponent)
  return (.float (if negative then -size else size), rest)

end Mintage.Json
