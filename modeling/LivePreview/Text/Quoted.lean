/-
  LivePreview.Text.Quoted

  A text shown between double quotes in a message: quotes, backslashes and the
  common controls by a backslash and a letter, every other unprintable character
  by its number in braces.
-/

import LivePreview.Text.Unprintable

namespace LivePreview.Text.Quoted

/-- One character of a quoted text. -/
def encodeChar (c : Char) : List Char :=
  if c = '"' then ['\\', '"']
  else if c = '\\' then ['\\', '\\']
  else if c = '\n' then ['\\', 'n']
  else if c = '\r' then ['\\', 'r']
  else if c = '\t' then ['\\', 't']
  else if c = '\x00' then ['\\', '0']
  else if isUnprintable c then
    ['\\', 'u', '\x7b'] ++ Nat.toDigits 16 c.toNat ++ ['\x7d']
  else [c]

/-- The whole text between double quotes. -/
def encode (s : List Char) : List Char :=
  '"' :: s.flatMap encodeChar ++ ['"']

end LivePreview.Text.Quoted
