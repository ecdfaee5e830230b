/-
  LivePreview.Text.CharTable

  Sets of characters given by a table: the code points at which membership
  changes, in ascending order.  A character belongs to the set when an odd
  number of changes lies at or below it.
-/

namespace LivePreview.Text

/-- A set of characters, written as the ascending list of the code points at
    which membership changes: entered at the first, left at the second, … -/
structure CharTable where
  switches : List Nat

namespace CharTable

/-- Membership: the number of switches at or below the character is odd. -/
def contains (t : CharTable) (c : Char) : Bool :=
  (t.switches.takeWhile (· ≤ c.toNat)).length % 2 == 1

end CharTable

end LivePreview.Text
