/-
  LivePreview.Json.Numeral

  Numbers of a JSON text: how they are written, and what value they have.

  The digits of a number are taken while they fit a machine word (`takeDigits`).
  The word is then moved by the decimal exponent with one rounding for each step of
  up to 308 places, so the value may differ in its last place from the binary number
  nearest to what is written.
-/

import LivePreview.Json.Lexeme

namespace LivePreview.Json

open Number (Binary64)

/-! ## How numbers are written -/

/-- The exponent of a number as it is written. -/
structure Exponent where
  negative : Bool
  digits : List Char

/-- A number as it is written, without its sign; a fraction that is not there has
    no digits. -/
structure Numeral where
  whole : List Char
  fraction : List Char
  exponent : Option Exponent

/-- At least one digit.  `atEnd` is the fault when the text ends instead. -/
def readDigits1 (atEnd : Fault) : Reader (List Char)
  | [] => .error atEnd
  | c :: cs =>
    if c.isDigit then .ok (c :: cs.takeWhile Char.isDigit, cs.dropWhile Char.isDigit)
    else .error .malformed

/-- The digits before the point; a zero stands alone. -/
def readWhole (atEnd : Fault) : Reader (List Char)
  | '0' :: cs =>
    match cs with
    | d :: _ => if d.isDigit then .error .malformed else .ok (['0'], cs)
    | [] => .ok (['0'], cs)
  | s => readDigits1 atEnd s

/-- The digits behind the point, if there is a point. -/
def readFraction (atEnd : Fault) : Reader (List Char)
  | '.' :: cs => readDigits1 atEnd cs
  | s => .ok ([], s)

/-- The sign of an exponent is negative, and the text behind it. -/
def exponentSign : List Char → Bool × List Char
  | '+' :: rest => (false, rest)
  | '-' :: rest => (true, rest)
  | s => (false, s)

/-- The exponent, if there is one. -/
def readExponent (atEnd : Fault) : Reader (Option Exponent)
  | [] => .ok (none, [])
  | c :: cs =>
    if c = 'e' ∨ c = 'E' then
      let (negative, s) := exponentSign cs
      (readDigits1 atEnd s).map fun (digits, rest) => (some ⟨negative, digits⟩, rest)
    else .ok (none, c :: cs)

/-- A number behind its sign. -/
def readNumeral (atEnd : Fault) : Reader Numeral := fun s =>
  match readWhole atEnd s with
  | .error e => .error e
  | .ok (whole, s) =>
    match readFraction atEnd s with
    | .error e => .error e
    | .ok (fraction, s) =>
      (readExponent atEnd s).map fun (exponent, s) => (⟨whole, fraction, exponent⟩, s)

/-! ## Digits that fit a machine word -/

/-- The number that results when digits are appended to `n` while it stays within
    the limit, and the digits that are left. -/
def takeDigits (limit : Nat) : Nat → List Char → Nat × List Char
  | n, [] => (n, [])
  | n, c :: cs =>
    let next := 10 * n + (c.toNat - 48)
    if next ≤ limit then takeDigits limit next cs else (n, c :: cs)

/-! ## Values -/

/-- The greatest step by which a value is moved at once. -/
def maxShift : Nat := 308

/-- A value divided by a power of ten. -/
def shiftDown (x : Binary64) (e : Nat) : Binary64 :=
  let by10 (x : Binary64) (e : Nat) : Binary64 :=
    ((Binary64.ofNat? (Nat.pow 10 e)).bind x.div?).getD .zero
  if x = .zero then x
  else if e ≤ maxShift then by10 x e
  else shiftDown (by10 x maxShift) (e - maxShift)
termination_by e
decreasing_by simp only [maxShift] at *; omega

/-- A value times a power of ten, if it is not too large. -/
def shiftUp? (x : Binary64) (e : Nat) : Option Binary64 :=
  if x = .zero then some x
  else if e ≤ maxShift then (Binary64.ofNat? (Nat.pow 10 e)).bind x.mul?
  else none

/-- A value times a power of ten with any exponent. -/
def shift? (x : Binary64) (e : Int) : Option Binary64 :=
  if 0 ≤ e then shiftUp? x e.toNat else some (shiftDown x (-e).toNat)

namespace Numeral

/-- The whole digits that fit a word of 64 bits, and those left. -/
def word (n : Numeral) : Nat × List Char := takeDigits (Nat.pow 2 64 - 1) 0 n.whole

/-- The number is written as an integer that fits a word of 64 bits. -/
def isWord (n : Numeral) : Bool :=
  n.word.2.isEmpty && n.fraction.isEmpty && n.exponent.isNone

/-- The first digits of the number as a word of 64 bits, and the exponent of its
    last place.  A digit of the fraction that does not fit counts for nothing, nor
    do those behind it. -/
def scaled (n : Numeral) : Nat × Int :=
  let (whole, above) := n.word
  let (word, left) := takeDigits (Nat.pow 2 64 - 1) whole n.fraction
  (word, above.length - (n.fraction.length - left.length : Nat))

/-- The binary value, if it is not too large.  An exponent beyond 31 bits stands
    for a value that is zero or too large. -/
def magnitude? (n : Numeral) : Option Binary64 :=
  let (word, place) := n.scaled
  match n.exponent with
  | none => (Binary64.ofNat? word).bind (shift? · place)
  | some ⟨negative, digits⟩ =>
    match takeDigits (Nat.pow 2 31 - 1) 0 digits with
    | (e, []) =>
      (Binary64.ofNat? word).bind (shift? · (if negative then place - e else place + e))
    | _ => if negative || word == 0 then some .zero else none

/-- What a number is: an integer if it is written as one and fits a machine word
    of its sign, else a binary value, unless it is too large. -/
def found? (negative : Bool) (n : Numeral) : Option Found :=
  let value := n.word.1
  if n.isWord && !negative then some (.integer value)
  else if n.isWord && 0 < value && value ≤ Nat.pow 2 63 then some (.integer (-value))
  else n.magnitude?.map (.decimal negative)

end Numeral

end LivePreview.Json
