import Mintage.Bytes

/-! Scripts as byte strings, and the pushes that coinbase scripts are built from. -/

namespace Mintage

abbrev Script := Bytes

namespace Script

def opZero : UInt8 := 0x00
def opPushData1 : UInt8 := 0x4c
def opPushData2 : UInt8 := 0x4d
def opPushData4 : UInt8 := 0x4e
def opNegativeOne : UInt8 := 0x4f
def opReturn : UInt8 := 0x6a

/-- The bytes of a magnitude, least significant first and none for zero. -/
def magnitude (n : Nat) : Bytes :=
  if n = 0 then [] else UInt8.ofNat n :: magnitude (n / 256)
termination_by n

/-- Sets the top bit of the last byte for a negative number. A magnitude that needs that bit itself
gets one more byte for the sign. -/
def sign (negative : Bool) : Bytes → Bytes
  | [] => []
  | [last] =>
    if last &&& 0x80 != 0 then [last, if negative then 0x80 else 0]
    else [if negative then last ||| 0x80 else last]
  | byte :: rest => byte :: sign negative rest

/-- A number in little-endian sign and magnitude form. -/
def number (n : Int) : Bytes :=
  sign (n < 0) (magnitude n.natAbs)

/-- The shortest push of `content`. -/
def push (content : Bytes) : Bytes :=
  let size := content.length
  if size < 0x4c then UInt8.ofNat size :: content
  else if size ≤ 0xff then opPushData1 :: UInt8.ofNat size :: content
  else if size ≤ 0xffff then opPushData2 :: Bytes.ofNat 2 size ++ content
  else opPushData4 :: Bytes.ofNat 4 size ++ content

/-- The push of an integer; -1 and 0 to 16 have opcodes of their own. -/
def pushInt (n : Int) : Bytes :=
  if n = 0 then [opZero]
  else if n = -1 then [opNegativeOne]
  else if 1 ≤ n ∧ n ≤ 16 then [UInt8.ofNat (0x50 + n.toNat)]
  else push (number n)

end Script
end Mintage
