/-
  LivePreview.Digest.Sha256

  The SHA-256 digest of a text, as the sixty-four lowercase hexadecimal digits of
  its eight words.
-/

namespace LivePreview.Digest

namespace Sha256

/-! ## Words -/

/-- Rotation to the right, for amounts between 1 and 31. -/
def rotate (x n : UInt32) : UInt32 := (x >>> n) ||| (x <<< (32 - n))

/-- Takes each bit from the second word where the first has a one, else from the
    third. -/
def choose (x y z : UInt32) : UInt32 := (x &&& y) ^^^ (~~~x &&& z)

/-- Each bit as in the majority of the three words. -/
def majority (x y z : UInt32) : UInt32 := (x &&& y) ^^^ (x &&& z) ^^^ (y &&& z)

/-- The word made of four bytes, the most significant first. -/
def word (a b c d : UInt8) : UInt32 :=
  (a.toUInt32 <<< 24) ||| (b.toUInt32 <<< 16) ||| (c.toUInt32 <<< 8) ||| d.toUInt32

/-- The words of a text of bytes; an incomplete last word is left out. -/
def words : List UInt8 → List UInt32
  | a :: b :: c :: d :: rest => word a b c d :: words rest
  | _ => []

/-! ## Padding -/

/-- The eight bytes of a number below 2^64, the most significant first. -/
def lengthBytes (n : Nat) : List UInt8 :=
  (List.range 8).map fun i => UInt8.ofNat (n / Nat.pow 256 (7 - i))

/-- The zero bytes that complete the last block of a text of `n` bytes. -/
def paddingZeros (n : Nat) : Nat := (119 - n % 64) % 64

/-- The text, a byte that begins with a one bit, zeros, and the length in bits. -/
def pad (bytes : List UInt8) : List UInt8 :=
  bytes ++ [0x80] ++ List.replicate (paddingZeros bytes.length) 0 ++ lengthBytes (8 * bytes.length)

/-! ## Rounds -/

/-- The round constants. -/
def constants : List UInt32 := [
  0x428a2f98, 0x71374491, 0xb5c0fbcf, 0xe9b5dba5, 0x3956c25b, 0x59f111f1, 0x923f82a4, 0xab1c5ed5,
  0xd807aa98, 0x12835b01, 0x243185be, 0x550c7dc3, 0x72be5d74, 0x80deb1fe, 0x9bdc06a7, 0xc19bf174,
  0xe49b69c1, 0xefbe4786, 0x0fc19dc6, 0x240ca1cc, 0x2de92c6f, 0x4a7484aa, 0x5cb0a9dc, 0x76f988da,
  0x983e5152, 0xa831c66d, 0xb00327c8, 0xbf597fc7, 0xc6e00bf3, 0xd5a79147, 0x06ca6351, 0x14292967,
  0x27b70a85, 0x2e1b2138, 0x4d2c6dfc, 0x53380d13, 0x650a7354, 0x766a0abb, 0x81c2c92e, 0x92722c85,
  0xa2bfe8a1, 0xa81a664b, 0xc24b8b70, 0xc76c51a3, 0xd192e819, 0xd6990624, 0xf40e3585, 0x106aa070,
  0x19a4c116, 0x1e376c08, 0x2748774c, 0x34b0bcb5, 0x391c0cb3, 0x4ed8aa4a, 0x5b9cca4f, 0x682e6ff3,
  0x748f82ee, 0x78a5636f, 0x84c87814, 0x8cc70208, 0x90befffa, 0xa4506ceb, 0xbef9a3f7, 0xc67178f2]

/-- The schedule continued by `n` words; the latest word comes first. -/
def expand : Nat → List UInt32 → List UInt32
  | 0, schedule => schedule
  | n + 1, schedule =>
    let w2 := schedule.getD 1 0
    let w7 := schedule.getD 6 0
    let w15 := schedule.getD 14 0
    let w16 := schedule.getD 15 0
    let s0 := rotate w15 7 ^^^ rotate w15 18 ^^^ (w15 >>> 3)
    let s1 := rotate w2 17 ^^^ rotate w2 19 ^^^ (w2 >>> 10)
    expand n ((w16 + s0 + w7 + s1) :: schedule)

/-- The words of a block continued to one word for each round. -/
def schedule (block : List UInt32) : List UInt32 := (expand 48 block.reverse).reverse

/-- The eight working words. -/
structure State where
  a : UInt32
  b : UInt32
  c : UInt32
  d : UInt32
  e : UInt32
  f : UInt32
  g : UInt32
  h : UInt32

/-- The state before the first block. -/
def State.start : State :=
  ⟨0x6a09e667, 0xbb67ae85, 0x3c6ef372, 0xa54ff53a, 0x510e527f, 0x9b05688c, 0x1f83d9ab, 0x5be0cd19⟩

/-- The sum of two states, word by word. -/
def State.add (x y : State) : State :=
  ⟨x.a + y.a, x.b + y.b, x.c + y.c, x.d + y.d, x.e + y.e, x.f + y.f, x.g + y.g, x.h + y.h⟩

/-- The words in order. -/
def State.words (x : State) : List UInt32 := [x.a, x.b, x.c, x.d, x.e, x.f, x.g, x.h]

/-- One round with its constant and its word of the schedule. -/
def round (x : State) (kw : UInt32 × UInt32) : State :=
  let s1 := rotate x.e 6 ^^^ rotate x.e 11 ^^^ rotate x.e 25
  let t1 := x.h + s1 + choose x.e x.f x.g + kw.1 + kw.2
  let s0 := rotate x.a 2 ^^^ rotate x.a 13 ^^^ rotate x.a 22
  let t2 := s0 + majority x.a x.b x.c
  ⟨t1 + t2, x.a, x.b, x.c, x.d + t1, x.e, x.f, x.g⟩

/-- The state after a block. -/
def compress (x : State) (block : List UInt32) : State :=
  x.add ((constants.zip (schedule block)).foldl round x)

/-- The state after some blocks of sixteen words. -/
def absorb : Nat → State → List UInt32 → State
  | 0, x, _ => x
  | n + 1, x, ws => absorb n (compress x (ws.take 16)) (ws.drop 16)

/-! ## The digest -/

/-- The hexadecimal digit of the four bits that begin at bit `shift`. -/
def nibble (w shift : UInt32) : Char := Nat.digitChar ((w >>> shift) &&& 15).toNat

/-- The eight digits of a word, the most significant first. -/
def wordDigits (w : UInt32) : List Char :=
  [nibble w 28, nibble w 24, nibble w 20, nibble w 16, nibble w 12, nibble w 8, nibble w 4,
    nibble w 0]

/-- The digits of the digest of some bytes. -/
def digits (bytes : List UInt8) : List Char :=
  let padded := pad bytes
  (absorb (padded.length / 64) .start (words padded)).words.flatMap wordDigits

end Sha256

/-- The SHA-256 digest of the UTF-8 form of a text in lowercase hexadecimal
    digits. -/
def sha256 (s : String) : String := String.ofList (Sha256.digits s.toUTF8.toList)

end LivePreview.Digest
