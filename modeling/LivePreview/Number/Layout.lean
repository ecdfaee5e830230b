/-
  LivePreview.Number.Layout

  A decimal as text: with a point, and with an exponent when its leading digit
  stands more than fifteen places before the last whole one or more than five
  places behind the point.
-/

import LivePreview.Number.Shortest

namespace LivePreview.Number

/-- The decimal digits of a number without the zeros at their end. -/
def trimmedDigits (n : Nat) : List Char :=
  (((toString n).toList.reverse).dropWhile (· == '0')).reverse

/-- Digits with a point, the first of them standing for `10 ^ e`. -/
def positional (digits : List Char) (e : Int) : List Char :=
  if e < 0 then '0' :: '.' :: List.replicate (-e - 1).toNat '0' ++ digits
  else
    let whole := digits.take (e.toNat + 1)
    let fraction := digits.drop (e.toNat + 1)
    whole ++ List.replicate (e.toNat + 1 - whole.length) '0' ++ '.' ::
      if fraction.isEmpty then ['0'] else fraction

/-- Digits with a point behind the first, which stands for `10 ^ e`, and `e`. -/
def scientific (digits : List Char) (e : Int) : List Char :=
  let fraction := digits.drop 1
  digits.take 1 ++ (if fraction.isEmpty then [] else '.' :: fraction) ++
    'e' :: (if e < 0 then '-' else '+') :: (toString e.natAbs).toList

/-- The text of a decimal. -/
def Decimal.text (d : Decimal) : List Char :=
  match trimmedDigits d.digits with
  | [] => ['0', '.', '0']
  | digits =>
    let e := d.exponent + (toString d.digits).length - 1
    if -5 ≤ e ∧ e ≤ 15 then positional digits e else scientific digits e

/-- The text of a value: that of the shortest decimal that reads back as it. -/
def Binary64.text (x : Binary64) : List Char := x.shortest.text

end LivePreview.Number
