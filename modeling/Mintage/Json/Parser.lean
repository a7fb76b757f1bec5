import Mintage.Hex
import Mintage.Json.Number

/-! Reading JSON text. Of several fields with one name the last counts. -/

namespace Mintage.Json

def isBlank (c : Char) : Bool :=
  c == ' ' || c == '\n' || c == '\r' || c == '\t'

def hexDigit? (c : Char) : Option Nat :=
  if c.toNat < 128 then Hex.digitValue c.toUInt8 else none

def codeUnit? (digits : List Char) : Option Nat := do
  return (← digits.mapM hexDigit?).foldl (fun unit digit => 16 * unit + digit) 0

/-- The character that a letter behind a backslash stands for. -/
def escape? : Char → Option Char
  | '\x22' => some '\x22'
  | '\\' => some '\\'
  | '/' => some '/'
  | 'b' => some '\x08'
  | 'f' => some '\x0c'
  | 'n' => some '\n'
  | 'r' => some '\r'
  | 't' => some '\t'
  | _ => none

/-- Reads a string up to its closing quote; `read` is what came before, reversed. Two halves of a surrogate
pair belong together, and neither stands alone. -/
def string? (read : List Char) : List Char → Option (String × List Char)
  | [] => none
  | '\x22' :: rest => some (String.ofList read.reverse, rest)
  | '\\' :: 'u' :: a :: b :: c :: d :: rest => do
    let unit ← codeUnit? [a, b, c, d]
    if 0xd800 ≤ unit ∧ unit ≤ 0xdbff then
      match rest with
      | '\\' :: 'u' :: a :: b :: c :: d :: rest => do
        let low ← codeUnit? [a, b, c, d]
        guard (0xdc00 ≤ low ∧ low ≤ 0xdfff)
        string? (Char.ofNat (0x10000 + 0x400 * (unit - 0xd800) + (low - 0xdc00)) :: read) rest
      | _ => none
    else if 0xdc00 ≤ unit ∧ unit ≤ 0xdfff then none
    else string? (Char.ofNat unit :: read) rest
  | '\\' :: letter :: rest => do
    let c ← escape? letter
    string? (c :: read) rest
  | c :: rest => if c.toNat < 32 then none else string? (c :: read) rest

/-- How many arrays and objects may contain each other. -/
def maxDepth : Nat := 127

mutual

/-- Reads a value. The length of the text is fuel enough: what a step takes is at least one character. -/
def value? (depth : Nat) : (fuel : Nat) → List Char → Option (Json × List Char)
  | 0, _ => none
  | fuel + 1, chars =>
    match depth, chars.dropWhile isBlank with
    | _, 'n' :: 'u' :: 'l' :: 'l' :: rest => some (.null, rest)
    | _, 't' :: 'r' :: 'u' :: 'e' :: rest => some (.bool true, rest)
    | _, 'f' :: 'a' :: 'l' :: 's' :: 'e' :: rest => some (.bool false, rest)
    | _, '\x22' :: rest => do
      let (content, rest) ← string? [] rest
      return (.text content, rest)
    | depth + 1, '[' :: rest =>
      match rest.dropWhile isBlank with
      | ']' :: rest => some (.array [], rest)
      | rest => items? depth [] fuel rest
    | depth + 1, '\x7b' :: rest =>
      match rest.dropWhile isBlank with
      | '\x7d' :: rest => some (.object [], rest)
      | rest => fields? depth [] fuel rest
    | _, '-' :: rest => number? true rest
    | _, rest => number? false rest

/-- Reads the items of an array, of which there is one at least; `read` is what came before, reversed. -/
def items? (depth : Nat) (read : List Json) : (fuel : Nat) → List Char → Option (Json × List Char)
  | 0, _ => none
  | fuel + 1, chars => do
    let (item, rest) ← value? depth fuel chars
    match rest.dropWhile isBlank with
    | ',' :: rest => items? depth (item :: read) fuel rest
    | ']' :: rest => some (.array (item :: read).reverse, rest)
    | _ => none

/-- Reads the fields of an object in the same way. -/
def fields? (depth : Nat) (read : List (String × Json)) : (fuel : Nat) → List Char → Option (Json × List Char)
  | 0, _ => none
  | fuel + 1, chars =>
    match chars.dropWhile isBlank with
    | '\x22' :: rest => do
      let (name, rest) ← string? [] rest
      match rest.dropWhile isBlank with
      | ':' :: rest => do
        let (value, rest) ← value? depth fuel rest
        let read := (name, value) :: read.filter (·.1 != name)
        match rest.dropWhile isBlank with
        | ',' :: rest => fields? depth read fuel rest
        | '\x7d' :: rest => some (.object read.reverse, rest)
        | _ => none
      | _ => none
    | _ => none

end

/-- The value that a whole text stands for. -/
def parse? (text : String) : Option Json := do
  let chars := text.toList
  let (value, rest) ← value? maxDepth (chars.length + 1) chars
  guard (rest.all isBlank)
  return value

end Mintage.Json
