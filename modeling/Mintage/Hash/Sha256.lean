import Mintage.Bytes

/-! The SHA-256 digest of a byte string, thirty-two bytes whatever the message. -/

namespace Mintage.Sha256

/-- The eight working words. -/
structure State where
  a : UInt32
  b : UInt32
  c : UInt32
  d : UInt32
  e : UInt32
  f : UInt32
  g : UInt32
  h : UInt32

def initial : State :=
  ⟨0x6a09e667, 0xbb67ae85, 0x3c6ef372, 0xa54ff53a, 0x510e527f, 0x9b05688c, 0x1f83d9ab, 0x5be0cd19⟩

def roundConstants : List UInt32 := [
  0x428a2f98, 0x71374491, 0xb5c0fbcf, 0xe9b5dba5, 0x3956c25b, 0x59f111f1, 0x923f82a4, 0xab1c5ed5,
  0xd807aa98, 0x12835b01, 0x243185be, 0x550c7dc3, 0x72be5d74, 0x80deb1fe, 0x9bdc06a7, 0xc19bf174,
  0xe49b69c1, 0xefbe4786, 0x0fc19dc6, 0x240ca1cc, 0x2de92c6f, 0x4a7484aa, 0x5cb0a9dc, 0x76f988da,
  0x983e5152, 0xa831c66d, 0xb00327c8, 0xbf597fc7, 0xc6e00bf3, 0xd5a79147, 0x06ca6351, 0x14292967,
  0x27b70a85, 0x2e1b2138, 0x4d2c6dfc, 0x53380d13, 0x650a7354, 0x766a0abb, 0x81c2c92e, 0x92722c85,
  0xa2bfe8a1, 0xa81a664b, 0xc24b8b70, 0xc76c51a3, 0xd192e819, 0xd6990624, 0xf40e3585, 0x106aa070,
  0x19a4c116, 0x1e376c08, 0x2748774c, 0x34b0bcb5, 0x391c0cb3, 0x4ed8aa4a, 0x5b9cca4f, 0x682e6ff3,
  0x748f82ee, 0x78a5636f, 0x84c87814, 0x8cc70208, 0x90befffa, 0xa4506ceb, 0xbef9a3f7, 0xc67178f2]

def rotateRight (word count : UInt32) : UInt32 :=
  (word >>> count) ||| (word <<< (32 - count))

/-- Appends `count` further words of the message schedule. -/
def extend : (count : Nat) → Array UInt32 → Array UInt32
  | 0, words => words
  | count + 1, words =>
    let next := words.size
    let early := words.getD (next - 15) 0
    let late := words.getD (next - 2) 0
    let small := rotateRight early 7 ^^^ rotateRight early 18 ^^^ (early >>> 3)
    let large := rotateRight late 17 ^^^ rotateRight late 19 ^^^ (late >>> 10)
    extend count (words.push (words.getD (next - 16) 0 + small + words.getD (next - 7) 0 + large))

def round (s : State) (constant word : UInt32) : State :=
  let mixE := rotateRight s.e 6 ^^^ rotateRight s.e 11 ^^^ rotateRight s.e 25
  let choice := (s.e &&& s.f) ^^^ (~~~s.e &&& s.g)
  let first := s.h + mixE + choice + constant + word
  let mixA := rotateRight s.a 2 ^^^ rotateRight s.a 13 ^^^ rotateRight s.a 22
  let majority := (s.a &&& s.b) ^^^ (s.a &&& s.c) ^^^ (s.b &&& s.c)
  ⟨first + (mixA + majority), s.a, s.b, s.c, s.d + first, s.e, s.f, s.g⟩

def rounds (schedule : Array UInt32) : (constants : List UInt32) → (index : Nat) → State → State
  | [], _, s => s
  | constant :: rest, index, s => rounds schedule rest (index + 1) (round s constant (schedule.getD index 0))

/-- Most significant byte first, four bytes to a word. -/
def wordsOf (acc : Array UInt32) : Bytes → Array UInt32
  | a :: b :: c :: d :: rest =>
    wordsOf (acc.push ((a.toUInt32 <<< 24) ||| (b.toUInt32 <<< 16) ||| (c.toUInt32 <<< 8) ||| d.toUInt32)) rest
  | _ => acc

def compress (s : State) (chunk : Bytes) : State :=
  let t := rounds (extend 48 (wordsOf #[] chunk)) roundConstants 0 s
  ⟨s.a + t.a, s.b + t.b, s.c + t.c, s.d + t.d, s.e + t.e, s.f + t.f, s.g + t.g, s.h + t.h⟩

def absorb : (chunks : Nat) → State → Bytes → State
  | 0, s, _ => s
  | chunks + 1, s, bytes => absorb chunks (compress s (bytes.take 64)) (bytes.drop 64)

/-- The message, a set bit, zeros up to a whole number of chunks, and the bit length. -/
def pad (message : Bytes) : Bytes :=
  let size := message.length
  message ++ 0x80 :: (List.replicate ((119 - size % 64) % 64) 0 ++ (Bytes.ofNat 8 (8 * size)).reverse)

def wordBytes (word : UInt32) : Bytes :=
  (Bytes.ofNat 4 word.toNat).reverse

def digest (message : Bytes) : Bytes :=
  let padded := pad message
  let s := absorb (padded.length / 64) initial padded
  [s.a, s.b, s.c, s.d, s.e, s.f, s.g, s.h].flatMap wordBytes

@[simp] theorem length_digest (message : Bytes) : (digest message).length = 32 := by
  simp [digest, wordBytes]

end Mintage.Sha256
