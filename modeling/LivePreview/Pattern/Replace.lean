/-
  LivePreview.Pattern.Replace

  All matches of a pattern in a text, from left to right and without overlap,
  and texts with their matches replaced.  A match of no characters is not
  counted.

  `pieces` cuts the text into matches and the characters between them, in time
  proportional to its length.  `pieces_eq_piecesAfter` says that it looks for a
  match at each place that no match covers, and `flatMap_text_pieces` that the
  pieces make up the text.
-/

import LivePreview.Pattern.Sweep

namespace LivePreview.Pattern

/-- A part of a searched text. -/
inductive Piece where
  /-- A character that belongs to no match. -/
  | plain (c : Char)
  /-- A match. -/
  | hit (m : Match)

namespace Piece

/-- The part itself. -/
def text : Piece → List Char
  | plain c => [c]
  | hit m => m.text

/-- The match, if the part is one. -/
def match? : Piece → Option Match
  | plain _ => none
  | hit m => some m

/-- The part with a match replaced. -/
def replace (f : Match → List Char) : Piece → List Char
  | plain c => [c]
  | hit m => f m

end Piece

/-- The pieces of the text after its first `skip` characters, where `last` is
    the character before the text. -/
def piecesAfter (p : Pattern) : Option Char → Nat → List Char → List Piece
  | _, _, [] => []
  | _, skip + 1, c :: cs => piecesAfter p (some c) skip cs
  | last, 0, c :: cs =>
    -- An empty match moves on by one character, as no match does.
    match p.matchAt? last (c :: cs) with
    | some ⟨d :: ds, groups⟩ =>
      .hit ⟨d :: ds, groups⟩ :: piecesAfter p (some c) ds.length cs
    | _ => .plain c :: piecesAfter p (some c) 0 cs

/-- The pieces of the text after its first `skip` characters, from the texts of the
    matches at its places. -/
def cut : Nat → List Char → List (Option MatchTexts) → List Piece
  | _, [], _ => []
  | skip + 1, _ :: cs, found => cut skip cs found.tail
  | 0, c :: cs, found =>
    match (found.headD none).map Match.ofTexts with
    | some ⟨d :: ds, groups⟩ => .hit ⟨d :: ds, groups⟩ :: cut ds.length cs found.tail
    | _ => .plain c :: cut 0 cs found.tail

theorem cut_eq_piecesAfter {p : Pattern} {last : Option Char} {s : List Char}
    {found : List (Option MatchTexts)}
    (h : found.map (Option.map Match.ofTexts) =
      (places last s).map fun x => p.matchAt? x.last x.rest) (skip : Nat) :
    cut skip s found = p.piecesAfter last skip s := by
  induction s generalizing last skip found with
  | nil => simp [cut, piecesAfter]
  | cons c cs ih =>
    rw [places, List.map_cons, List.map_eq_cons_iff] at h
    obtain ⟨texts, rest, rfl, htexts, hrest⟩ := h
    cases skip with
    | succ skip => rw [cut, piecesAfter, List.tail_cons, ih hrest]
    | zero => simp only [cut, piecesAfter, List.headD_cons, List.tail_cons, htexts, ih hrest]

/-- The matches in a text and the characters between them. -/
def pieces (p : Pattern) (s : List Char) : List Piece := cut 0 s (p.allMatchTexts none s)

theorem pieces_eq_piecesAfter (p : Pattern) (s : List Char) :
    p.pieces s = p.piecesAfter none 0 s :=
  cut_eq_piecesAfter (map_allMatchTexts p none s) 0

/-- All matches, from left to right. -/
def allMatches (p : Pattern) (s : List Char) : List Match := (p.pieces s).filterMap Piece.match?

/-- The first match. -/
def first? (p : Pattern) (s : List Char) : Option Match := (p.allMatches s).head?

/-- The pattern matches somewhere in the text. -/
def occursIn (p : Pattern) (s : List Char) : Bool := (p.first? s).isSome

/-- The text with every match replaced. -/
def replace (p : Pattern) (f : Match → List Char) (s : List Char) : List Char :=
  (p.pieces s).flatMap (Piece.replace f)

/-- The text without its matches. -/
def erase (p : Pattern) (s : List Char) : List Char := p.replace (fun _ => []) s

/-! ## The pieces make up the text -/

theorem flatMap_text_piecesAfter (p : Pattern) (last : Option Char) (skip : Nat) (s : List Char) :
    (p.piecesAfter last skip s).flatMap Piece.text = s.drop skip := by
  induction s generalizing last skip with
  | nil => simp [piecesAfter]
  | cons c cs ih =>
    cases skip with
    | succ skip => simp [piecesAfter, ih]
    | zero =>
      rw [piecesAfter]
      split
      · next d ds groups h =>
        obtain ⟨t, ht⟩ := text_prefix_of_matchAt? h
        simp only [List.cons_append, List.cons.injEq] at ht
        obtain ⟨rfl, rfl⟩ := ht
        rw [List.flatMap_cons, ih, Piece.text, List.drop_left]
        rfl
      · simp [Piece.text, ih]

theorem flatMap_text_pieces (p : Pattern) (s : List Char) :
    (p.pieces s).flatMap Piece.text = s := by
  simp [pieces_eq_piecesAfter, flatMap_text_piecesAfter]

/-- Without a match nothing is replaced. -/
theorem replace_of_not_occursIn {p : Pattern} {s : List Char} (h : p.occursIn s = false)
    (f : Match → List Char) : p.replace f s = s := by
  have hnil : p.allMatches s = [] := by
    simpa [occursIn, first?] using h
  have hplain : ∀ xs : List Piece, xs.filterMap Piece.match? = [] →
      xs.flatMap (Piece.replace f) = xs.flatMap Piece.text := by
    intro xs hxs
    induction xs with
    | nil => rfl
    | cons x xs ih =>
      cases x with
      | hit m => simp [Piece.match?] at hxs
      | plain c =>
        rw [List.flatMap_cons, List.flatMap_cons, ih (by simpa [Piece.match?] using hxs)]
        rfl
  rw [replace, hplain _ hnil, flatMap_text_pieces]

end LivePreview.Pattern
