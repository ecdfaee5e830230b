/-
  LivePreview.Script.Identifier

  Identifiers: an ASCII letter, `_` or `$`, then any number of these and of
  digits.
-/

import LivePreview.Pattern.Basic

namespace LivePreview.Script

/-- A character that can begin an identifier. -/
def isIdentifierStart (c : Char) : Bool := c.isAlpha || c == '_' || c == '$'

/-- A character that can follow in an identifier. -/
def isIdentifierPart (c : Char) : Bool := c.isAlphanum || c == '_' || c == '$'

/-- The text is one identifier. -/
def isIdentifier : List Char → Bool
  | [] => false
  | c :: cs => isIdentifierStart c && cs.all isIdentifierPart

/-- Matches the longest identifier. -/
def identifier : Pattern := .one isIdentifierStart ++ .many isIdentifierPart

theorem isIdentifierPart_of_start {c : Char} (h : isIdentifierStart c = true) :
    isIdentifierPart c = true := by
  simp only [isIdentifierStart, isIdentifierPart, Char.isAlphanum, Bool.or_eq_true] at h ⊢
  rcases h with (h | h) | h <;> simp [h]

/-- Every character of an identifier can stand inside one. -/
theorem all_isIdentifierPart_of_isIdentifier {s : List Char} (h : isIdentifier s = true) :
    s.all isIdentifierPart = true := by
  cases s with
  | nil => rfl
  | cons c cs =>
    simp only [isIdentifier, Bool.and_eq_true] at h
    simp [isIdentifierPart_of_start h.1, h.2]

end LivePreview.Script
