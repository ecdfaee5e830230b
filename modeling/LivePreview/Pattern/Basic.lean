/-
  LivePreview.Pattern.Basic

  Patterns over texts.  Alternatives are ordered: the first that lets the rest of
  the pattern match is taken, a run of characters tries its longest form first
  (`many`) or its shortest (`few`).

  `Pattern.outcomes` says what matches where; `Pattern.sweep` finds it.
-/

import LivePreview.Text.Blank
import LivePreview.Text.Word

namespace LivePreview

/-- A pattern.  Character classes are predicates. -/
inductive Pattern where
  /-- Matches the empty text. -/
  | nothing
  /-- One character of a class. -/
  | one (cls : Char → Bool)
  /-- Any number of characters of a class, as many as possible. -/
  | many (cls : Char → Bool)
  /-- Any number of characters of a class, as few as possible. -/
  | few (cls : Char → Bool)
  /-- The first pattern, then the second. -/
  | seq (first second : Pattern)
  /-- The preferred pattern, or else the other. -/
  | either (preferred other : Pattern)
  /-- A pattern whose matched text is kept. -/
  | group (body : Pattern)
  /-- Between a word character and something else. -/
  | wordBoundary
  /-- At the start of the text or after a line feed. -/
  | lineStart

namespace Pattern

instance : Append Pattern := ⟨seq⟩

instance : OrOp Pattern := ⟨either⟩

@[simp] theorem append_eq (p q : Pattern) : p ++ q = seq p q := rfl

@[simp] theorem or_eq (p q : Pattern) : p ||| q = either p q := rfl

/-! ## Derived patterns -/

/-- Exactly this character. -/
def char (c : Char) : Pattern := one (· == c)

/-- Exactly this text. -/
def literal (s : String) : Pattern := s.toList.foldr (fun c p => char c ++ p) nothing

/-- A run of at least one character, as long as possible. -/
def many1 (cls : Char → Bool) : Pattern := one cls ++ many cls

/-- A run of at least one character, as short as possible. -/
def few1 (cls : Char → Bool) : Pattern := one cls ++ few cls

/-- The pattern if it matches, else nothing. -/
def optional (p : Pattern) : Pattern := p ||| nothing

/-- The first of several texts that lets the match succeed. -/
def oneOf : List String → Pattern
  | [] => one fun _ => false
  | [s] => literal s
  | s :: rest => literal s ||| oneOf rest

end Pattern

end LivePreview
