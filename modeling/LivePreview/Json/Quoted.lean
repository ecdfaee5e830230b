/-
  LivePreview.Json.Quoted

  JSON strings as they are written: quotes, backslashes and controls escaped,
  every other character as it is.
-/

namespace LivePreview.Json.Quoted

/-- One character of a JSON string. -/
def encodeChar (c : Char) : List Char :=
  if c = '"' then ['\\', '"']
  else if c = '\\' then ['\\', '\\']
  else if c = '\x08' then ['\\', 'b']
  else if c = '\x0c' then ['\\', 'f']
  else if c = '\n' then ['\\', 'n']
  else if c = '\r' then ['\\', 'r']
  else if c = '\t' then ['\\', 't']
  else if c.toNat < 16 then ['\\', 'u', '0', '0', '0', Nat.digitChar c.toNat]
  else if c.toNat < 32 then ['\\', 'u', '0', '0', '1', Nat.digitChar (c.toNat - 16)]
  else [c]

/-- The text between double quotes. -/
def encode (s : List Char) : List Char := '"' :: s.flatMap encodeChar ++ ['"']

/-- A character that is neither control, quote nor backslash stands for itself. -/
theorem encodeChar_of_plain {c : Char} (hlow : 32 ≤ c.toNat) (hquote : c ≠ '"')
    (hback : c ≠ '\\') : encodeChar c = [c] := by
  have hne : ∀ d : Char, d.toNat < 32 → c ≠ d := by
    rintro d hd rfl
    omega
  rw [encodeChar, if_neg hquote, if_neg hback, if_neg (hne _ (by decide)),
    if_neg (hne _ (by decide)), if_neg (hne _ (by decide)), if_neg (hne _ (by decide)),
    if_neg (hne _ (by decide)), if_neg (by omega), if_neg (by omega)]

/-- What holds of the characters up to the backslash and of every character that stands for
    itself holds of all. -/
theorem forall_encodeChar {P : Char → List Char → Prop}
    (hlow : ∀ n < 93, P (Char.ofNat n) (encodeChar (Char.ofNat n))) (hplain : ∀ c, P c [c])
    (c : Char) : P c (encodeChar c) := by
  by_cases h : c.toNat < 93
  · have hc := hlow c.toNat h
    rwa [Char.ofNat_toNat] at hc
  · have hne : ∀ d : Char, d.toNat < 93 → c ≠ d := by
      rintro d hd rfl
      exact h hd
    rw [encodeChar_of_plain (by omega) (hne _ (by decide)) (hne _ (by decide))]
    exact hplain c

end LivePreview.Json.Quoted

namespace LivePreview.Json

/-- A text as a JSON string. -/
def quote (s : String) : String := String.ofList (Quoted.encode s.toList)

end LivePreview.Json
