/-! Monetary amounts in base units. Sums that could leave the sixty-four bits of an amount stop at its
ends. -/

namespace Mintage

abbrev Amount := Int64

namespace Amount

/-- Base units in one coin. -/
def coin : Amount := 100000000

/-- The most that a single output, or all outputs of one transaction, may carry. -/
def maxMoney : Amount := 21000000 * coin

def inRange (value : Amount) : Bool :=
  0 ≤ value && value ≤ maxMoney

/-- The exact sum if it fits, else the nearer end of the range. -/
def add (left right : Amount) : Amount :=
  Int64.ofIntClamp (left.toInt + right.toInt)

def total (values : List Amount) : Amount :=
  values.foldl add 0

end Amount
end Mintage
