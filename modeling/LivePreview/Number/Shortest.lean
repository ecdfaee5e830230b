/-
  LivePreview.Number.Shortest

  The decimal that stands for a binary value: of those that only this value is
  nearest to, one with the fewest digits, and of these the closest.

  The decimals with a given last place are a grid.  `onGrid?` asks for a point of
  the grid that reads back as the value.
-/

import LivePreview.Number.Binary64

namespace LivePreview.Number

/-- The decimal `digits * 10 ^ exponent`. -/
structure Decimal where
  digits : Nat
  exponent : Int
deriving DecidableEq

namespace Binary64

/-! ## Grids

A value and the decimals with the last place `10 ^ g` are compared as multiples of
one small number, so that all of them are natural numbers. -/

/-- A quarter of the value's unit. -/
def quarter (x : Binary64) (g : Int) : Nat :=
  Nat.pow 2 (x.exponent - 2).toNat * Nat.pow 10 (-g).toNat

/-- The distance of two points of the grid. -/
def step (x : Binary64) (g : Int) : Nat := Nat.pow 10 g.toNat * Nat.pow 2 (2 - x.exponent).toNat

/-- The value itself. -/
def scaled (x : Binary64) (g : Int) : Nat := 4 * x.significand * x.quarter g

/-- The point `k` of the grid reads back as the value: it lies closer to it than
    to its neighbours, or just between and the value is even. -/
def inside (x : Binary64) (g : Int) (k : Nat) : Bool :=
  let low := x.scaled g - (if x.isNarrowBelow then 1 else 2) * x.quarter g
  let high := x.scaled g + 2 * x.quarter g
  if x.significand % 2 = 0 then low ≤ k * x.step g && k * x.step g ≤ high
  else low < k * x.step g && k * x.step g < high

/-- The nearest point of the grid that reads back, if there is one.  Only the
    points next to the value can. -/
def onGrid? (x : Binary64) (g : Int) : Option Nat :=
  let below := x.scaled g / x.step g
  [roundDiv (x.scaled g) (x.step g), below, below + 1].find? (x.inside g)

/-! ## The fewest digits -/

/-- The exponent of the leading decimal digit. -/
def leadingExponent (x : Binary64) : Int :=
  let exponents := (List.range 633).map fun (i : Nat) => (308 : Int) - i
  (exponents.find? fun e => x.step e ≤ x.scaled e).getD (-324)

/-- The value without rounding. -/
def exact (x : Binary64) : Decimal :=
  if 0 ≤ x.exponent then ⟨x.significand * Nat.pow 2 x.exponent.toNat, 0⟩
  else ⟨x.significand * Nat.pow 5 (-x.exponent).toNat, x.exponent⟩

/-- The decimal with the fewest digits that reads back as the value.  Seventeen
    digits are enough. -/
def shortest (x : Binary64) : Decimal :=
  let e := x.leadingExponent
  let grids := (List.range 17).map fun (i : Nat) => e - i
  (grids.findSome? fun g => (x.onGrid? g).map fun k => Decimal.mk k g).getD x.exact

end Binary64

end LivePreview.Number
