import Mintage.Hex
import Mintage.Json

/-! JSON text of values. A float is written with the fewest digits that lie nearer to it than to any other
float. -/

namespace Mintage.Json

def escaped (c : Char) : String :=
  if c == '\x22' then "\\\x22"
  else if c == '\\' then "\\\\"
  else if c.toNat < 32 then "\\u" ++ Hex.padded 4 c.toNat
  else String.singleton c

def quoted (text : String) : String :=
  text.foldl (fun written c => written ++ escaped c) "\x22" ++ "\x22"

/-- A positive float: `mantissa` times two to the `exponent`. -/
structure Binary where
  mantissa : Nat
  exponent : Int
  /-- Whether the float below is only half as far away as the one above. -/
  narrow : Bool

def Binary.ofFloat (value : Float) : Binary :=
  let bits := value.toBits.toNat
  let fraction : Nat := bits % 0x10000000000000
  let scale : Nat := bits >>> 52 % 0x800
  if scale = 0 then ⟨fraction, -1074, false⟩
  else ⟨0x10000000000000 + fraction, scale - 1075, decide (fraction = 0 ∧ scale > 1)⟩

/-- The multiple of ten to the `power` next to a float, if no other float is nearer to it. Quarters of the
last binary place tell where the other floats begin. -/
def Binary.multiple? (binary : Binary) (power : Int) : Option Nat :=
  let shift := binary.exponent - 2
  let unit := Nat.pow 10 (-power).toNat <<< shift.toNat
  let ten := Nat.pow 10 power.toNat <<< (-shift).toNat
  let middle := 4 * binary.mantissa
  let low := middle - (if binary.narrow then 1 else 2)
  let count := (2 * middle * unit + ten) / (2 * ten)
  let even := binary.mantissa % 2 == 0
  let above := decide (low * unit < count * ten) || (even && low * unit == count * ten)
  let below := decide (count * ten < (middle + 2) * unit) || (even && count * ten == (middle + 2) * unit)
  if above && below then some count else none

/-- The first of `tries` powers of ten, from `power` downwards, of which a multiple will do. -/
def Binary.shortest (binary : Binary) : (tries : Nat) → (power : Int) → Nat × Int
  | 0, power => (0, power)
  | tries + 1, power =>
    match binary.multiple? power with
    | some count => (count, power)
    | none => shortest binary tries (power - 1)

/-- A count of powers of ten, with a point among its digits unless that takes many zeros. -/
def decimal (count : Nat) (power : Int) : String :=
  let digits := Nat.toDigits 10 count
  let point := digits.length + power
  let zeros := fun n => List.replicate n '0'
  if 0 ≤ power ∧ point ≤ 16 then String.ofList (digits ++ zeros power.toNat ++ ['.', '0'])
  else if 0 < point ∧ point ≤ 16 then
    String.ofList (digits.take point.toNat ++ '.' :: digits.drop point.toNat)
  else if -5 < point ∧ point ≤ 0 then String.ofList ('0' :: '.' :: zeros (-point).toNat ++ digits)
  else
    let rest := digits.drop 1
    let mantissa := digits.take 1 ++ (if rest.isEmpty then [] else '.' :: rest)
    String.ofList mantissa ++ "e" ++ toString (point - 1)

/-- Null stands for what is not a number or not finite. No float needs a power of ten above 308 or below
-324. -/
def printFloat (value : Float) : String :=
  let sign := if value.toBits ≥ 0x8000000000000000 then "-" else ""
  if !value.isFinite then "null"
  else if value == 0 then sign ++ "0.0"
  else
    let (count, power) := (Binary.ofFloat value).shortest 633 308
    sign ++ decimal count power

mutual

def print : Json → String
  | .null => "null"
  | .bool value => if value then "true" else "false"
  | .int value => toString value
  | .float value => printFloat value
  | .text value => quoted value
  | .array items => "[" ++ ",".intercalate (printItems items) ++ "]"
  | .object fields => "\x7b" ++ ",".intercalate (printFields fields) ++ "\x7d"

def printItems : List Json → List String
  | [] => []
  | item :: rest => print item :: printItems rest

def printFields : List (String × Json) → List String
  | [] => []
  | (name, value) :: rest => (quoted name ++ ":" ++ print value) :: printFields rest

end

end Mintage.Json
