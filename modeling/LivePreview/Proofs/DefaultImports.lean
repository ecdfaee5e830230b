/-
  LivePreview.Proofs.DefaultImports

  Which import statements are recorded: those whose clause is a single name.

  As for the whole statement, everything before the specifier is free of quotes, so the
  clause can be read off from both of its ends (`fails_defaultImport_of_other`).
-/

import LivePreview.Proofs.ImportStatements

namespace LivePreview.Script

open Pattern

variable {last : Option Char}

/-! ## Imports of a default -/

/-- The text is one name and white space, perhaps behind white space. -/
def isOneName (s : List Char) : Bool :=
  let t := s.dropWhile Text.isBlank
  let rest := t.dropWhile isIdentifierPart
  t.head?.any isIdentifierStart && !rest.isEmpty && rest.all Text.isBlank

theorem isOneName_of_eq {gap g h : Gap} {n : Name} {s : List Char}
    (hs : gap.chars ++ s = g.chars ++ (n.chars ++ h.chars)) : isOneName s = true := by
  have hname : Stops Text.isBlank (n.chars ++ h.chars) := n.stops_isBlank _
  have hdrop : s.dropWhile Text.isBlank = n.chars ++ h.chars := by
    rw [← List.dropWhile_append_of_pos gap.blank, hs, dropWhile_run g.blank hname]
  have hrest : (n.chars ++ h.chars).dropWhile isIdentifierPart = h.chars := by
    have hgap := h.stops []
    rw [List.append_nil] at hgap
    exact dropWhile_run n.isIdentifierPart_of_mem hgap
  have hhead : (n.chars ++ h.chars).head?.any isIdentifierStart = true := by
    obtain ⟨c, cs, hn, hc, -⟩ := n.exists_cons
    rw [hn]
    exact hc
  have hblank : h.chars.all Text.isBlank = true := List.all_eq_true.mpr h.blank
  have hne : h.chars.isEmpty = false := List.isEmpty_eq_false_iff.mpr h.nonempty
  rw [isOneName, hdrop, hrest, hhead, hne, hblank]
  rfl

theorem prefers_defaultImport (last : Option Char) (g : Gap) (n : Name) (before after : Gap)
    (s : Specifier) (hs : s.text ≠ []) (r : List Char) : Shape.defaultImport.Prefers last
      ("import".toList ++ g.chars ++ n.chars ++ before.chars ++ "from".toList ++ after.chars ++
        s.chars) r [n.chars, s.text] := by
  have hname : Stops Text.isBlank (n.chars ++ (before.chars ++ ("from".toList ++
      (after.chars ++ (s.chars ++ r))))) := n.stops_isBlank _
  have hends : Stops isIdentifierPart (before.chars ++ ("from".toList ++
      (after.chars ++ (s.chars ++ r)))) := before.stops _
  have hfrom : Stops Text.isBlank ("from".toList ++ (after.chars ++ (s.chars ++ r))) :=
    stops_cons.mpr (by decide)
  have hquote : Stops Text.isBlank (s.chars ++ r) := s.stops_isBlank r
  have hinside : ∀ c ∈ s.text, (!Shape.isQuote c) = true := by
    intro c hc
    rw [isQuote_of_isSpecifierPart (s.isSpecifierPart_of_mem c hc)]
    rfl
  have hclosing : Stops (!Shape.isQuote ·) ([s.closing] ++ r) := by
    rw [List.singleton_append, stops_cons]
    exact not_isQuote_eq_false s.closing_isQuote
  have hwords := ((((((prefers_literal "import" last _).seq (prefers_blanks1 g hname)).seq
    (prefers_identifier n hends).group).seq (prefers_blanks1 before hfrom)).seq
    (prefers_literal "from" _ _)).seq (prefers_blanks1 after hquote))
  -- Only the text between the quotes is kept, so the specifier is split at them.
  have hchars : s.chars ++ r = [s.opening] ++ (s.text ++ ([s.closing] ++ r)) := by
    simp [Specifier.chars]
  rw [hchars] at hwords
  have hopened := hwords.seq (prefers_one s.opening_isQuote)
  have hnamed := hopened.seq (prefers_many1 hs hinside hclosing).group
  have hall := hnamed.seq (prefers_one s.closing_isQuote)
  rw [Shape.defaultImport]
  simpa only [Specifier.chars, List.append_assoc, List.singleton_append, List.nil_append,
    List.append_nil, List.cons_append] using hall

/-- The words, the name and the quoted text of a recorded import. -/
theorem exists_of_takes_defaultImport {t r : List Char} {gs : List (List Char)}
    (htakes : Shape.defaultImport.Takes last t r gs) : ∃ g : Gap, ∃ n : Name, ∃ h k : Gap,
      ∃ q m q', t = "import".toList ++ (g.chars ++ (n.chars ++ (h.chars ++ ("from".toList ++
        k.chars)))) ++ q :: (m ++ [q']) ∧ gs = [n.chars, m] ∧ Shape.isQuote q = true ∧
          ∀ c ∈ m, Shape.isQuote c = false := by
  obtain ⟨_, _, _, _, rfl, rfl, ⟨_, m, _, _, rfl, rfl, ⟨_, _, _, _, rfl, rfl, hwords,
    ⟨q, rfl, hq⟩, rfl⟩, ⟨_, rfl, hm⟩⟩, ⟨q', rfl, -⟩, rfl⟩ := htakes
  obtain ⟨⟨-, hquote⟩, rfl⟩ := takes_many1.mp hm
  simp only [takes_seq_blanks1, takes_seq_literal, takes_seq_identifier, takes_literal] at hwords
  obtain ⟨_, k, rfl, _, rfl, _, h, rfl, _, _, n, rfl, rfl, _, g, rfl, rfl, rfl⟩ := hwords
  refine ⟨g, n, h, k, q, m, q', ?_, rfl, hq, fun c hc => by simpa using hquote c hc⟩
  simp only [List.append_assoc, List.cons_append, List.nil_append]

/-- The words of an import of a default hold no quote. -/
theorem not_isQuote_of_mem_words (g : Gap) (n : Name) (h k : Gap) :
    ∀ c ∈ "import".toList ++ (g.chars ++ (n.chars ++ (h.chars ++ ("from".toList ++ k.chars)))),
      (!Shape.isQuote c) = true := by
  intro c hc
  simp only [List.mem_append] at hc
  rcases hc with hc | hc | hc | hc | hc | hc
  · exact not_isQuote_of_mem_import c hc
  · exact not_isQuote_of_mem_gap g.toWhite c hc
  · have hpart := isClausePart_of_isIdentifierPart (n.isIdentifierPart_of_mem c hc)
    rw [isQuote_of_isClausePart hpart]
    rfl
  · exact not_isQuote_of_mem_gap h.toWhite c hc
  · exact not_isQuote_of_mem_from c hc
  · exact not_isQuote_of_mem_gap k.toWhite c hc

/-- The words of an import of a default stand before the first quote. -/
theorem words_eq_of_takes_defaultImport {w t r : List Char} {gs : List (List Char)}
    {s : Specifier} {u : List Char} (hw : ∀ c ∈ w, (!Shape.isQuote c) = true)
    (heq : "import".toList ++ w ++ (s.chars ++ u) = t ++ r)
    (htakes : Shape.defaultImport.Takes last t r gs) : ∃ g : Gap, ∃ n : Name, ∃ h k : Gap,
      w = g.chars ++ (n.chars ++ (h.chars ++ ("from".toList ++ k.chars))) := by
  obtain ⟨g, n, h, k, q, m, q', rfl, -, hq, -⟩ := exists_of_takes_defaultImport htakes
  have hleft : ∀ c ∈ "import".toList ++ w, (!Shape.isQuote c) = true := by
    intro c hc
    rcases List.mem_append.mp hc with hc | hc
    · exact not_isQuote_of_mem_import c hc
    · exact hw c hc
  -- No quote comes before the specifier on either side.
  rw [List.append_assoc _ _ r] at heq
  have hwords := (run_unique heq hleft (not_isQuote_of_mem_words g n h k)
    (s.stops (fun _ => not_isQuote_eq_false) u) (stops_cons.mpr (not_isQuote_eq_false hq))).1
  exact ⟨g, n, h, k, List.append_cancel_left hwords⟩

/-- A clause that is no single name is not recorded. -/
theorem fails_defaultImport_of_other (last : Option Char) (gap : Gap) (text : ClauseText)
    (after : White) (s : Specifier) (htext : isOneName text.chars = false) (r : List Char) :
    Shape.defaultImport.Fails last ("import".toList ++ (gap.chars ++ text.chars ++
      "from".toList ++ after.chars) ++ (s.chars ++ r)) := by
  rw [fails_iff]
  intro t r' gs heq htakes
  have hquote : ∀ c ∈ gap.chars ++ text.chars ++ "from".toList ++ after.chars,
      (!Shape.isQuote c) = true := by
    intro c hc
    simp only [List.mem_append] at hc
    rcases hc with ((hc | hc) | hc) | hc
    · exact not_isQuote_of_mem_gap gap.toWhite c hc
    · rw [isQuote_of_isClausePart (text.isClausePart_of_mem c hc)]
      rfl
    · exact not_isQuote_of_mem_from c hc
    · exact not_isQuote_of_mem_gap after c hc
  obtain ⟨g, n, h, k, hwords⟩ := words_eq_of_takes_defaultImport hquote heq htakes
  -- Read from the end: white space, `from`, and what the name is followed by.
  have hend : ∀ u : List Char, Stops Text.isBlank (u ++ "from".toList).reverse := by
    intro u
    rw [List.reverse_append]
    exact stops_cons.mpr (by decide)
  have hright : gap.chars ++ text.chars ++ "from".toList ++ after.chars =
      g.chars ++ n.chars ++ h.chars ++ "from".toList ++ k.chars := by
    simpa only [List.append_assoc] using hwords
  obtain ⟨hclause, -⟩ := run_unique_right hright after.blank k.blank (hend _) (hend _)
  have hleft : gap.chars ++ text.chars = g.chars ++ (n.chars ++ h.chars) := by
    rw [← List.append_assoc]
    exact List.append_cancel_right hclause
  -- So the clause is the name with white space around it.
  rw [isOneName_of_eq hleft] at htext
  cases htext

/-- An import for its effects is not recorded. -/
theorem fails_defaultImport_of_none (last : Option Char) (gap : Gap) (s : Specifier)
    (r : List Char) : Shape.defaultImport.Fails last
      ("import".toList ++ gap.chars ++ (s.chars ++ r)) := by
  rw [fails_iff]
  intro t r' gs heq htakes
  obtain ⟨g, n, h, k, hwords⟩ :=
    words_eq_of_takes_defaultImport (not_isQuote_of_mem_gap gap.toWhite) heq htakes
  -- The name would have to stand in the white space.
  obtain ⟨c, cs, hn, hc, -⟩ := n.exists_cons
  have hmem : c ∈ gap.chars := by
    rw [hwords, hn]
    simp
  have hblank := gap.blank c hmem
  rw [isBlank_of_isIdentifierPart (isIdentifierPart_of_start hc)] at hblank
  cases hblank

end LivePreview.Script
