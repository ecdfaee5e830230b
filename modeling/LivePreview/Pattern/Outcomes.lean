/-
  LivePreview.Pattern.Outcomes

  What a pattern matches at a place: all the ways it can match there, in order of
  preference.  A match is the preferred one.

  `text_append_rest_of_mem_outcomes` says that what is matched and what is left
  make up the text.
-/

import LivePreview.Pattern.Basic

namespace LivePreview.Pattern

/-! ## Places -/

/-- A place in a text: the character before it and the text after it. -/
structure Place where
  last : Option Char
  rest : List Char
deriving DecidableEq

namespace Place

/-- The place is at the start of a line. -/
def atLineStart (x : Place) : Bool :=
  match x.last with
  | none => true
  | some c => c == '\n'

/-- The place is between a word character and something else. -/
def atWordBoundary (x : Place) : Bool := Text.isWordBoundary x.last x.rest.head?

/-- A character of the class is next. -/
def begins (x : Place) (cls : Char → Bool) : Bool :=
  match x.rest with
  | [] => false
  | c :: _ => cls c

end Place

/-! ## Outcomes -/

/-- A way in which a pattern matches: the matched text, the place behind it, and
    the texts kept by the groups in the order of their beginnings. -/
structure Outcome where
  text : List Char
  stop : Place
  groups : List (List Char)
deriving DecidableEq

namespace Outcome

/-- Nothing is matched. -/
def here (x : Place) : Outcome := ⟨[], x, []⟩

/-- A character and what is matched behind it. -/
def cons (c : Char) (y : Outcome) : Outcome := { y with text := c :: y.text }

/-- What is matched first and then at the place behind it. -/
def append (y z : Outcome) : Outcome := ⟨y.text ++ z.text, z.stop, y.groups ++ z.groups⟩

/-- The matched text is kept. -/
def keep (y : Outcome) : Outcome := { y with groups := y.text :: y.groups }

end Outcome

/-- The ways to match a run of a class, longest first. -/
def manyOutcomes (cls : Char → Bool) : Option Char → List Char → List Outcome
  | last, [] => [.here ⟨last, []⟩]
  | last, c :: cs =>
    if cls c then (manyOutcomes cls (some c) cs).map (.cons c) ++ [.here ⟨last, c :: cs⟩]
    else [.here ⟨last, c :: cs⟩]

/-- The ways to match a run of a class, shortest first. -/
def fewOutcomes (cls : Char → Bool) : Option Char → List Char → List Outcome
  | last, [] => [.here ⟨last, []⟩]
  | last, c :: cs =>
    .here ⟨last, c :: cs⟩ ::
      if cls c then (fewOutcomes cls (some c) cs).map (.cons c) else []

/-- The ways in which the pattern matches at a place, preferred first. -/
def outcomes : Pattern → Place → List Outcome
  | nothing, x => [.here x]
  | one cls, x =>
    match x.rest with
    | [] => []
    | c :: cs => if cls c then [⟨[c], ⟨some c, cs⟩, []⟩] else []
  | many cls, x => manyOutcomes cls x.last x.rest
  | few cls, x => fewOutcomes cls x.last x.rest
  | seq p q, x => (p.outcomes x).flatMap fun y => (q.outcomes y.stop).map y.append
  | either p q, x => p.outcomes x ++ q.outcomes x
  | group p, x => (p.outcomes x).map Outcome.keep
  | wordBoundary, x => if x.atWordBoundary then [.here x] else []
  | lineStart, x => if x.atLineStart then [.here x] else []

/-! ## Matches -/

/-- A match: its text and the texts kept by its groups. -/
structure Match where
  text : List Char
  groups : List (List Char)
deriving DecidableEq

/-- The text kept by the group of that index; empty if there is none. -/
def Match.group (m : Match) (i : Nat) : List Char := m.groups.getD i []

/-- The match at the beginning of a text, given the character before it. -/
def matchAt? (p : Pattern) (last : Option Char) (s : List Char) : Option Match :=
  (p.outcomes ⟨last, s⟩).head?.map fun y => ⟨y.text, y.groups⟩

/-! ## Outcomes make up the text -/

theorem text_append_rest_of_mem_manyOutcomes {cls : Char → Bool} {last : Option Char}
    {s : List Char} {y : Outcome} (h : y ∈ manyOutcomes cls last s) :
    y.text ++ y.stop.rest = s := by
  induction s generalizing last y with
  | nil => simp_all [manyOutcomes, Outcome.here]
  | cons c cs ih =>
    rw [manyOutcomes] at h
    split at h
    · rcases List.mem_append.mp h with h | h
      · obtain ⟨z, hz, rfl⟩ := List.mem_map.mp h
        simp [Outcome.cons, ih hz]
      · simp_all [Outcome.here]
    · simp_all [Outcome.here]

theorem text_append_rest_of_mem_fewOutcomes {cls : Char → Bool} {last : Option Char}
    {s : List Char} {y : Outcome} (h : y ∈ fewOutcomes cls last s) :
    y.text ++ y.stop.rest = s := by
  induction s generalizing last y with
  | nil => simp_all [fewOutcomes, Outcome.here]
  | cons c cs ih =>
    rw [fewOutcomes] at h
    rcases List.mem_cons.mp h with h | h
    · simp [h, Outcome.here]
    · split at h
      · obtain ⟨z, hz, rfl⟩ := List.mem_map.mp h
        simp [Outcome.cons, ih hz]
      · simp at h

/-- What an outcome matches and what it leaves make up the text. -/
theorem text_append_rest_of_mem_outcomes {p : Pattern} {x : Place} {y : Outcome}
    (h : y ∈ p.outcomes x) : y.text ++ y.stop.rest = x.rest := by
  induction p generalizing x y with
  | nothing => simp_all [outcomes, Outcome.here]
  | one cls =>
    rw [outcomes] at h
    split at h
    · simp at h
    · next c cs hx =>
      split at h
      · simp [List.mem_singleton.mp h, hx]
      · simp at h
  | many cls => exact text_append_rest_of_mem_manyOutcomes h
  | few cls => exact text_append_rest_of_mem_fewOutcomes h
  | seq p q ihp ihq =>
    obtain ⟨y, hy, hz⟩ := List.mem_flatMap.mp h
    obtain ⟨z, hq, rfl⟩ := List.mem_map.mp hz
    simp [Outcome.append, ihq hq, ihp hy]
  | either p q ihp ihq =>
    rcases List.mem_append.mp h with h | h
    · exact ihp h
    · exact ihq h
  | group p ih =>
    obtain ⟨z, hz, rfl⟩ := List.mem_map.mp h
    exact ih (y := z) hz
  | wordBoundary =>
    rw [outcomes] at h
    split at h <;> simp_all [Outcome.here]
  | lineStart =>
    rw [outcomes] at h
    split at h <;> simp_all [Outcome.here]

/-- A match is a beginning of the text. -/
theorem text_prefix_of_matchAt? {p : Pattern} {last : Option Char} {s : List Char} {m : Match}
    (h : p.matchAt? last s = some m) : m.text <+: s := by
  obtain ⟨y, hy, rfl⟩ := Option.map_eq_some_iff.mp h
  exact ⟨y.stop.rest, text_append_rest_of_mem_outcomes (List.mem_of_head? hy)⟩

end LivePreview.Pattern
