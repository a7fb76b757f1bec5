/-! Whole numbers in decimal. A sign may come first, and nothing but digits after it. -/

namespace Mintage.Text

def digits? (text : List Char) : Option Nat :=
  if text ≠ [] && text.all Char.isDigit then
    some (text.foldl (fun value c => 10 * value + (c.toNat - 48)) 0)
  else none

/-- An unsigned number, for which a plus is the only sign. -/
def natural? (text : String) : Option Nat :=
  match text.toList with
  | '+' :: rest => digits? rest
  | digits => digits? digits

def integer? (text : String) : Option Int :=
  match text.toList with
  | '+' :: rest => (digits? rest).map Int.ofNat
  | '-' :: rest => (digits? rest).map fun n => -(n : Int)
  | digits => (digits? digits).map Int.ofNat

end Mintage.Text
