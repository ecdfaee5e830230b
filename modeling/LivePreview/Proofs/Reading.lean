/-
  LivePreview.Proofs.Reading

  How a text is read for the matches of a pattern, part by part.

  `Reads` says what one part of a text comes to: what is left when its matches are
  replaced, and which groups they keep.  Parts without a match stay
  (`LedBy.reads_line`, `Begins.reads_text`), a match is replaced (`reads_hit`), and a
  text of lines is read line by line (`reads_flatMap`).
-/

import LivePreview.Proofs.Matching

namespace LivePreview.Pattern

variable {p : Pattern} {f : Match → List Char} {last : Option Char}

/-! ## One piece after the other -/

theorem piecesAfter_length (p : Pattern) (last : Option Char) (t r : List Char) :
    p.piecesAfter last t.length (t ++ r) = p.piecesAfter (lastAfter last t) 0 r := by
  induction t generalizing last with
  | nil => rfl
  | cons c t ih => rw [List.cons_append, List.length_cons, piecesAfter, ih, lastAfter_cons]

theorem piecesAfter_of_fails {c : Char} {s : List Char} (h : p.Fails last (c :: s)) :
    p.piecesAfter last 0 (c :: s) = .plain c :: p.piecesAfter (some c) 0 s := by
  rw [piecesAfter, matchAt?_eq_none h]

theorem piecesAfter_of_prefers {t r : List Char} {gs : List (List Char)}
    (h : p.Prefers last t r gs) (ht : t ≠ []) :
    p.piecesAfter last 0 (t ++ r) = .hit ⟨t, gs⟩ :: p.piecesAfter (lastAfter last t) 0 r := by
  -- The match is skipped character by character, so it must not be empty.
  obtain ⟨c, t, rfl⟩ := List.exists_cons_of_ne_nil ht
  have hmatch := h.matchAt?_eq
  rw [List.cons_append] at hmatch ⊢
  rw [piecesAfter, hmatch, lastAfter_cons, ← piecesAfter_length]

/-! ## Reading a part -/

/-- Between the character `last` and the text `r`, the text `t` is read by itself: with its
    matches replaced by `f` it becomes `out`, and they keep the groups `gss`. -/
def Reads (p : Pattern) (f : Match → List Char) (last : Option Char) (t r out : List Char)
    (gss : List (List (List Char))) : Prop :=
  ∃ ps, p.piecesAfter last 0 (t ++ r) = ps ++ p.piecesAfter (lastAfter last t) 0 r ∧
    ps.flatMap (Piece.replace f) = out ∧ (ps.filterMap Piece.match?).map Match.groups = gss

theorem reads_nil (last : Option Char) (r : List Char) : p.Reads f last [] r [] [] :=
  ⟨[], rfl, rfl, rfl⟩

theorem Reads.append {t u r out out' : List Char} {gss gss' : List (List (List Char))}
    (h : p.Reads f last t (u ++ r) out gss) (h' : p.Reads f (lastAfter last t) u r out' gss') :
    p.Reads f last (t ++ u) r (out ++ out') (gss ++ gss') := by
  obtain ⟨ps, hps, rfl, rfl⟩ := h
  obtain ⟨qs, hqs, rfl, rfl⟩ := h'
  refine ⟨ps ++ qs, ?_, by simp, by simp⟩
  rw [List.append_assoc, hps, hqs, lastAfter_append, List.append_assoc]

/-- A match is replaced. -/
theorem reads_hit {t r : List Char} {gs : List (List Char)} (h : p.Prefers last t r gs)
    (ht : t ≠ []) : p.Reads f last t r (f ⟨t, gs⟩) [gs] :=
  ⟨[.hit ⟨t, gs⟩], piecesAfter_of_prefers h ht, by simp [Piece.replace], rfl⟩

/-- A character at which nothing matches stays. -/
theorem Reads.cons {c : Char} {t r out : List Char} {gss : List (List (List Char))}
    (hc : p.Fails last (c :: (t ++ r))) (h : p.Reads f (some c) t r out gss) :
    p.Reads f last (c :: t) r (c :: out) gss := by
  have hone : p.Reads f last [c] (t ++ r) [c] [] :=
    ⟨[.plain c], piecesAfter_of_fails hc, rfl, rfl⟩
  exact hone.append h

/-- A text in which nothing matches stays. -/
theorem reads_of_fails {t r : List Char}
    (h : ∀ t₁ c t₂, t = t₁ ++ c :: t₂ → p.Fails (lastAfter last t₁) (c :: (t₂ ++ r))) :
    p.Reads f last t r t [] := by
  -- By induction on the text, with the character before it general.
  induction t generalizing last with
  | nil => exact reads_nil last r
  | cons c t ih =>
    refine Reads.cons (h [] c t rfl) (ih ?_)
    intro t₁ d t₂ ht
    simpa using h (c :: t₁) d t₂ (congrArg (c :: ·) ht)

/-- A text stays if nothing is matched at any of its places. -/
theorem reads_of_no_match {s : List Char}
    (h : ∀ a t r gs, s = a ++ (t ++ r) → ¬ p.Takes (lastAfter none a) t r gs) :
    p.Reads f none s [] s [] := by
  apply reads_of_fails
  rintro a c u rfl
  rw [fails_iff, List.append_nil]
  intro t r gs ht
  exact h a t r gs (by rw [ht])

/-- A whole text, read from its beginning. -/
theorem Reads.replace_eq {s out : List Char} {gss : List (List (List Char))}
    (h : p.Reads f none s [] out gss) : p.replace f s = out := by
  obtain ⟨ps, hps, rfl, -⟩ := h
  rw [List.append_nil, piecesAfter, List.append_nil] at hps
  rw [replace, pieces_eq_piecesAfter, hps]

/-- The groups that the matches in a whole text keep. -/
theorem Reads.map_groups_allMatches {s out : List Char} {gss : List (List (List Char))}
    (h : p.Reads f none s [] out gss) : (p.allMatches s).map Match.groups = gss := by
  obtain ⟨ps, hps, -, rfl⟩ := h
  rw [List.append_nil, piecesAfter, List.append_nil] at hps
  rw [allMatches, pieces_eq_piecesAfter, hps]

theorem Reads.map_allMatches {α : Type} (F : List (List Char) → α) {s out : List Char}
    {gss : List (List (List Char))} (h : p.Reads f none s [] out gss) :
    (p.allMatches s).map (fun m => F m.groups) = gss.map F := by
  rw [← h.map_groups_allMatches, List.map_map]
  rfl

theorem Reads.allMatches_eq_nil {s s' : List Char} (h : p.Reads f none s [] s' []) :
    p.allMatches s = [] :=
  List.map_eq_nil_iff.mp h.map_groups_allMatches

/-! ## Words that lead a match -/

/-- Every match begins with the word, perhaps behind spaces and tabs. -/
def LedBy (p : Pattern) (w : List Char) : Prop :=
  ∀ last t r gs, p.Takes last t r gs →
    ∃ b, (∀ c ∈ b, (c == ' ' || c == '\t') = true) ∧ b ++ w <+: t

/-- Every match begins with the word. -/
def Begins (p : Pattern) (w : List Char) : Prop :=
  ∀ last t r gs, p.Takes last t r gs → w <+: t

theorem Begins.ledBy {w : List Char} (h : p.Begins w) : p.LedBy w :=
  fun last t r gs ht => ⟨[], by simp, h last t r gs ht⟩

theorem begins_literal (s : String) : (literal s).Begins s.toList := by
  intro last t r gs h
  obtain ⟨rfl, -⟩ := takes_literal.mp h
  exact List.prefix_refl _

theorem Begins.seq {w : List Char} (h : p.Begins w) (q : Pattern) : (p ++ q).Begins w := by
  rintro last _ r gs ⟨t₁, t₂, gs₁, gs₂, rfl, -, hp, -⟩
  exact (h _ _ _ _ hp).trans (List.prefix_append t₁ t₂)

/-- A text that does not hold the character `c` ends before it. -/
theorem prefix_of_prefix_append_cons {c : Char} {u v s : List Char} (h : u <+: v ++ c :: s)
    (hc : c ∉ u) : u <+: v := by
  induction v generalizing u with
  | nil =>
    cases u with
    | nil => exact List.prefix_refl _
    | cons d u => exact absurd ((List.cons_prefix_cons.mp h).1 ▸ List.mem_cons_self) hc
  | cons e v ih =>
    cases u with
    | nil => exact List.nil_prefix
    | cons d u =>
      obtain ⟨rfl, htail⟩ := List.cons_prefix_cons.mp h
      exact List.cons_prefix_cons.mpr ⟨rfl, ih htail fun hmem => hc (List.mem_cons_of_mem _ hmem)⟩

theorem isPrefixOf_append_cons {c : Char} {w : List Char} (hc : c ∉ w) (v s : List Char) :
    w.isPrefixOf (v ++ c :: s) = w.isPrefixOf v := by
  rw [Bool.eq_iff_iff, List.isPrefixOf_iff_prefix, List.isPrefixOf_iff_prefix]
  constructor
  · intro h
    exact prefix_of_prefix_append_cons h hc
  · intro h
    exact h.trans (List.prefix_append v _)

/-- Lines that do not hold the leading word stay. -/
theorem LedBy.reads_line {w t r : List Char} (hp : p.LedBy w) (hw : '\n' ∉ w)
    (ht : ¬ w <:+: t) : p.Reads f last (t ++ ['\n']) r (t ++ ['\n']) [] := by
  apply reads_of_fails
  intro t₁ c t₂ hsplit
  rw [fails_iff]
  intro t' r' gs hrest htakes
  obtain ⟨b, hb, hbegins⟩ := hp _ _ _ _ htakes
  -- The part from here on ends in the line feed.
  obtain ⟨t₃, hpart, hend⟩ : ∃ t₃, t = t₁ ++ t₃ ∧ c :: t₂ = t₃ ++ ['\n'] := by
    rcases List.append_eq_append_iff.mp hsplit with ⟨a, rfl, ha⟩ | ⟨a, ha, hc⟩
    · have hnil : a = [] := by
        cases a with
        | nil => rfl
        | cons d a => simp at ha
      subst hnil
      exact ⟨[], by simp, ha.symm⟩
    · exact ⟨a, ha, hc⟩
  -- Neither the indentation nor the word crosses the line feed.
  have hbefore : b ++ w <+: t₃ := by
    apply prefix_of_prefix_append_cons (c := '\n') (s := r)
    · have hwhole : b ++ w <+: c :: (t₂ ++ r) := hrest ▸ hbegins.trans (List.prefix_append t' r')
      rwa [← List.cons_append, hend, List.append_assoc] at hwhole
    · intro hmem
      rcases List.mem_append.mp hmem with h | h
      · exact absurd (hb _ h) (by decide)
      · exact hw h
  apply ht
  rw [hpart]
  exact (List.suffix_append b w).isInfix.trans
    (hbefore.isInfix.trans (List.suffix_append t₁ t₃).isInfix)

/-- A match is replaced, and the rest of its line stays. -/
theorem LedBy.reads_match {w t u r : List Char} {gs : List (List Char)} (hp : p.LedBy w)
    (hw : '\n' ∉ w) (hmatch : p.Prefers last t (u ++ ['\n'] ++ r) gs) (ht : t ≠ [])
    (hu : ¬ w <:+: u) :
    p.Reads f last (t ++ (u ++ ['\n'])) r (f ⟨t, gs⟩ ++ (u ++ ['\n'])) [gs] := by
  have hhit : p.Reads f last t (u ++ ['\n'] ++ r) (f ⟨t, gs⟩) [gs] := reads_hit hmatch ht
  exact hhit.append (hp.reads_line hw hu)

theorem not_infix_append {x : Char} {w u v : List Char} (hx : x ∉ u) (hv : ¬ x :: w <:+: v) :
    ¬ x :: w <:+: u ++ v := by
  -- The word would begin in `u`, which does not hold its first character.
  induction u with
  | nil => exact hv
  | cons c u ih =>
    rw [List.mem_cons, not_or] at hx
    rw [List.cons_append, List.infix_cons_iff]
    rintro (h | h)
    · exact hx.1 (List.cons_prefix_cons.mp h).1
    · exact ih hx.2 h

/-- A line that begins with the leading word stays if nothing matches at its beginning. -/
theorem LedBy.reads_word {x : Char} {w t r : List Char} (hp : p.LedBy (x :: w))
    (hw : '\n' ∉ x :: w) (hx : x ∉ w) (ht : ¬ x :: w <:+: t)
    (hfails : p.Fails last (x :: w ++ (t ++ '\n' :: r))) :
    p.Reads f last (x :: w ++ t ++ ['\n']) r (x :: w ++ t ++ ['\n']) [] := by
  have hline : p.Reads f (some x) (w ++ t ++ ['\n']) r (w ++ t ++ ['\n']) [] :=
    hp.reads_line hw (not_infix_append hx ht)
  have htext : w ++ t ++ ['\n'] ++ r = w ++ (t ++ '\n' :: r) := by simp
  -- Behind the first character the word does not stand any more.
  refine Reads.cons (t := w ++ t ++ ['\n']) ?_ hline
  rw [htext]
  exact hfails

/-- A text without the first character of the leading word stays. -/
theorem Begins.reads_text {x : Char} {w t r : List Char} (hp : p.Begins w)
    (hx : w.head? = some x) (ht : x ∉ t) : p.Reads f last t r t [] := by
  apply reads_of_fails
  intro t₁ c t₂ hsplit
  rw [fails_iff]
  intro t' r' gs hrest htakes
  -- A match would begin with the character `x` of the text.
  obtain ⟨w, rfl⟩ := List.head?_eq_some_iff.mp hx
  have hbegins := (hp _ _ _ _ htakes).trans (List.prefix_append t' r')
  rw [← hrest] at hbegins
  obtain ⟨rfl, -⟩ := List.cons_prefix_cons.mp hbegins
  exact ht (hsplit ▸ List.mem_append_right t₁ List.mem_cons_self)

/-! ## Line by line -/

/-- A place at the beginning of a line. -/
def AtLine (last : Option Char) : Prop := ∀ c, last = some c → c = '\n'

theorem atLine_none : AtLine none := by
  intro c h
  cases h

/-- A text of whole lines. -/
def EndsLine (t : List Char) : Prop := t = [] ∨ t.getLast? = some '\n'

theorem endsLine_nil : EndsLine [] := .inl rfl

theorem endsLine_append_lineFeed (t : List Char) : EndsLine (t ++ ['\n']) := .inr (by simp)

theorem atLine_lastAfter {t : List Char} (h : AtLine last) (ht : EndsLine t) :
    AtLine (lastAfter last t) := by
  intro c hc
  rcases ht with rfl | ht
  · exact h c hc
  · rw [lastAfter, ht, Option.some_or] at hc
    exact (Option.some.inj hc).symm

theorem AtLine.atLineStart (h : AtLine last) (s : List Char) :
    (Place.mk last s).atLineStart = true := by
  unfold Place.atLineStart
  cases last with
  | none => rfl
  | some c => simp [h c rfl]

/-- Parts that each end a line are read one after the other. -/
theorem reads_flatMap {α : Type} {text out : α → List Char} {gss : α → List (List (List Char))}
    {items : List α}
    (hend : ∀ i, EndsLine (text i))
    (h : ∀ i post, i :: post <:+ items → ∀ last, AtLine last →
      p.Reads f last (text i) (post.flatMap text) (out i) (gss i)) (hlast : AtLine last) :
    p.Reads f last (items.flatMap text) [] (items.flatMap out) (items.flatMap gss) := by
  induction items generalizing last with
  | nil => exact reads_nil last []
  | cons i rest ih =>
    -- The part that is read ends a line, so the next one begins a line again.
    have hfirst := h i rest (List.suffix_refl _) last hlast
    have hnext := atLine_lastAfter hlast (hend i)
    have hrest := ih (fun j post hj => h j post (hj.trans (List.suffix_cons i rest))) hnext
    rw [← List.append_nil (List.flatMap text rest)] at hfirst
    exact hfirst.append hrest

end LivePreview.Pattern
