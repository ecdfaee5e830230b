/-
  LivePreview.Number.Binary64

  The finite binary numbers of 64 bits without their signs: values `m * 2 ^ q`
  where `m` has at most 53 binary digits.  Arithmetic on them is exact arithmetic
  rounded to the nearest such value, a tie to the even one; what would round
  beyond the greatest of them has no value.
-/

namespace LivePreview.Number

/-! ## Quotients -/

/-- The natural number nearest to a quotient; a tie goes to the even one. -/
def roundDiv (a b : Nat) : Nat :=
  if 2 * (a % b) < b ∨ (2 * (a % b) = b ∧ a / b % 2 = 0) then a / b else a / b + 1

/-- The exponent of the leading binary digit of a quotient of positive numbers. -/
def log2Div (a b : Nat) : Int :=
  let e : Int := (a.log2 : Int) - b.log2
  if b * Nat.pow 2 e.toNat ≤ a * Nat.pow 2 (-e).toNat then e else e - 1

/-! ## Values -/

/-- A value, given by its place among all of them in ascending order, which is
    also its 64-bit code. -/
structure Binary64 where
  code : Nat
  code_lt : code < 2047 * Nat.pow 2 52
deriving DecidableEq

namespace Binary64

/-- Zero. -/
def zero : Binary64 := ⟨0, by decide⟩

/-- The value as a number of units, of which there are less than `2 ^ 53`. -/
def significand (x : Binary64) : Nat :=
  if x.code < Nat.pow 2 52 then x.code else Nat.pow 2 52 + x.code % Nat.pow 2 52

/-- The exponent of the unit: the value is `significand * 2 ^ exponent`. -/
def exponent (x : Binary64) : Int := ((x.code / Nat.pow 2 52 - 1 : Nat) : Int) - 1074

/-- The gap to the value below is half the gap to the value above. -/
def isNarrowBelow (x : Binary64) : Bool := x.code % Nat.pow 2 52 == 0 && Nat.pow 2 53 ≤ x.code

/-! ## Arithmetic -/

/-- The value nearest to a quotient, if it is not too large. -/
def ofQuotient? (a b : Nat) : Option Binary64 :=
  if a = 0 then some zero
  else
    let q := max (-1074) (log2Div a b - 52)
    let m := roundDiv (a * Nat.pow 2 (-q).toNat) (b * Nat.pow 2 q.toNat)
    -- A carry into a further binary digit moves on to the next exponent by itself.
    let code := (q + 1074).toNat * Nat.pow 2 52 + m
    if h : code < 2047 * Nat.pow 2 52 then some ⟨code, h⟩ else none

/-- The value nearest to a natural number, if it is not too large. -/
def ofNat? (n : Nat) : Option Binary64 := ofQuotient? n 1

/-- The product, if it is not too large. -/
def mul? (x y : Binary64) : Option Binary64 :=
  let q := x.exponent + y.exponent
  ofQuotient? (x.significand * y.significand * Nat.pow 2 q.toNat) (Nat.pow 2 (-q).toNat)

/-- The quotient, if it is not too large and the divisor is not zero. -/
def div? (x y : Binary64) : Option Binary64 :=
  if y.significand = 0 then none
  else
    let q := x.exponent - y.exponent
    ofQuotient? (x.significand * Nat.pow 2 q.toNat) (y.significand * Nat.pow 2 (-q).toNat)

end Binary64

end LivePreview.Number
