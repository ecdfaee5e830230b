/-
  LivePreview.Proofs.ImportStatements

  Import statements go, together with their indentation and the line feed behind them
  (`erase_importStatement`).

  The parts of the pattern have to give way to each other: the clause is as short as
  possible, and it may hold the word `from` itself.  What fixes the match is that nothing
  before the specifier is a quote (`prefers_importHead`).
-/

import LivePreview.Proofs.PlainText

namespace LivePreview.Script

open Pattern

variable {last : Option Char}

/-! ## Import statements -/

namespace Item

/-- The item without import statements. -/
def unimported : Item → List Char
  | importing .. => []
  | i => i.text

theorem endsLine_unimported (i : Item) : EndsLine i.unimported := by
  cases i with
  | importing => exact endsLine_nil
  | _ => exact endsLine_append_lineFeed _

/-- An import statement keeps no groups. -/
def importGroups : Item → List (List (List Char))
  | importing .. => [[]]
  | _ => []

end Item

theorem not_isQuote_of_mem_gap (g : White) : ∀ c ∈ g.chars, (!Shape.isQuote c) = true := by
  intro c hc
  simp [isQuote_of_isBlank (g.blank c hc)]

theorem not_isQuote_of_mem_import : ∀ c ∈ "import".toList, (!Shape.isQuote c) = true :=
  List.all_eq_true.mp (by decide)

theorem not_isQuote_of_mem_from : ∀ c ∈ "from".toList, (!Shape.isQuote c) = true :=
  List.all_eq_true.mp (by decide)

/-- A quote ends a run without quotes. -/
theorem not_isQuote_eq_false {c : Char} (h : Shape.isQuote c = true) :
    (!Shape.isQuote c) = false := by
  rw [h]
  rfl

theorem not_isQuote_of_indent {c : Char} (h : (c == ' ' || c == '\t') = true) :
    (!Shape.isQuote c) = true := by
  simp only [Bool.or_eq_true, beq_iff_eq] at h
  rcases h with rfl | rfl <;> decide

/-- A specifier can be told from the text that begins with it. -/
theorem Specifier.unique {s s' : Specifier} {r r' : List Char}
    (h : s.chars ++ r = s'.chars ++ r') : s.chars = s'.chars := by
  obtain ⟨hopen, hrest⟩ : s.opening = s'.opening ∧
      s.text ++ s.closing :: r = s'.text ++ s'.closing :: r' := by
    simpa [Specifier.chars] using h
  have hstop : ∀ s : Specifier, ∀ r, Stops Shape.isSpecifierPart (s.closing :: r) := by
    intro s r
    rw [stops_cons, Shape.isSpecifierPart, s.closing_isQuote]
    rfl
  obtain ⟨htext, hclose⟩ := run_unique hrest s.isSpecifierPart_of_mem s'.isSpecifierPart_of_mem
    (hstop s r) (hstop s' r')
  rw [Specifier.chars, Specifier.chars, hopen, htext, (List.cons.inj hclose).1]

/-- The clause of an import statement, if it has one. -/
def importClause : Pattern :=
  optional (few1 Shape.isClausePart ++ Shape.blanks ++ literal "from" ++ Shape.blanks)

/-- An import statement up to its specifier. -/
def importHead : Pattern :=
  Shape.lineIndent ++ wordBoundary ++ literal "import" ++ Shape.blanks1 ++ importClause ++
    Shape.quotedSpecifier

theorem importStatement_eq : Shape.importStatement = importHead ++ Shape.indent ++
    optional (char ';') ++ Shape.indent ++ optional (char '\r') ++ optional (char '\n') := rfl

theorem takes_importClause (c : Clause) (last : Option Char) (r : List Char) :
    importClause.Takes last c.chars r [] := by
  have hfrom : ∀ {u : List Char} {w : White}, u ≠ [] → (∀ d ∈ u, Shape.isClausePart d = true) →
      importClause.Takes last (u ++ "from".toList ++ w.chars) r [] := by
    intro u w hne hu
    refine .inl (takes_seq_blanks.mpr ⟨_, w, rfl, takes_seq_literal.mpr ⟨_, rfl, ?_⟩⟩)
    refine takes_seq_blanks.mpr ⟨u, ⟨[], by simp⟩, (List.append_nil u).symm, ?_⟩
    exact takes_few1.mpr ⟨⟨hne, hu⟩, rfl⟩
  cases c with
  -- Nothing stands for no clause; in the other cases the run takes all before `from`.
  | none => exact .inr ⟨rfl, rfl⟩
  | name n before after =>
    refine hfrom (u := n.chars ++ before.chars) (by simp [n.ne_nil]) ?_
    intro d hd
    rcases List.mem_append.mp hd with hd | hd
    · exact isClausePart_of_isIdentifierPart (n.isIdentifierPart_of_mem d hd)
    · exact isClausePart_of_isBlank (before.blank d hd)
  | other text after => exact hfrom text.nonempty text.isClausePart_of_mem

/-- What a clause can be taken for: nothing, or a text and `from`. -/
def IsClause (t : List Char) : Prop :=
  t = [] ∨ ∃ c : ClauseText, ∃ w : White, t = c.chars ++ "from".toList ++ w.chars

theorem isClause_of_takes_importClause {t r : List Char} {gs : List (List Char)}
    (h : importClause.Takes last t r gs) : IsClause t ∧ gs = [] := by
  -- The clause is taken apart from its end; there may be none.
  rcases h with h | ⟨rfl, rfl⟩
  · obtain ⟨_, w, rfl, hfrom⟩ := takes_seq_blanks.mp h
    obtain ⟨_, rfl, hblanks⟩ := takes_seq_literal.mp hfrom
    obtain ⟨u, v, rfl, hparts⟩ := takes_seq_blanks.mp hblanks
    obtain ⟨⟨hne, hpart⟩, rfl⟩ := takes_few1.mp hparts
    have hclause : ∀ c ∈ u ++ v.chars, Shape.isClausePart c = true := by
      intro c hc
      rcases List.mem_append.mp hc with hc | hc
      · exact hpart c hc
      · exact isClausePart_of_isBlank (v.blank c hc)
    exact ⟨.inr ⟨⟨_, List.append_ne_nil_of_left_ne_nil hne _, hclause⟩, w, rfl⟩, rfl⟩
  · exact ⟨.inl rfl, rfl⟩

/-- A clause does not quote anything. -/
theorem IsClause.not_isQuote {t : List Char} (h : IsClause t) :
    ∀ c ∈ t, (!Shape.isQuote c) = true := by
  rcases h with rfl | ⟨u, w, rfl⟩
  · simp
  · intro c hc
    simp only [List.mem_append] at hc
    rcases hc with (hc | hc) | hc
    · simp [isQuote_of_isClausePart (u.isClausePart_of_mem c hc)]
    · exact not_isQuote_of_mem_from c hc
    · exact not_isQuote_of_mem_gap w c hc

/-- The parts of an import statement up to its specifier; no word character stands before
    `import`. -/
theorem exists_of_takes_importHead {t r : List Char} {gs : List (List Char)}
    (h : importHead.Takes last t r gs) : gs = [] ∧ ∃ b, ∃ g : Gap, ∃ c, ∃ s : Specifier,
      t = b ++ ("import".toList ++ (g.chars ++ (c ++ s.chars))) ∧
      (∀ d ∈ b, (d == ' ' || d == '\t') = true) ∧
      (lastAfter last b).any Text.isWord = false ∧ IsClause c := by
  obtain ⟨_, _, _, _, rfl, rfl, ⟨_, c, _, _, rfl, rfl, hgap, hclause⟩, hspec⟩ := h
  obtain ⟨⟨s, rfl⟩, rfl⟩ := takes_quotedSpecifier.mp hspec
  obtain ⟨hparts, rfl⟩ := isClause_of_takes_importClause hclause
  obtain ⟨_, g, rfl, hword⟩ := takes_seq_blanks1.mp hgap
  obtain ⟨_, rfl, hstart⟩ := takes_seq_literal.mp hword
  obtain ⟨b, _, _, _, rfl, rfl, hindent, ⟨rfl, rfl, hboundary⟩⟩ := hstart
  obtain ⟨hspaces, rfl⟩ := indent_of_takes_lineIndent hindent
  refine ⟨rfl, b, g, c, s, by simp, hspaces, ?_, hparts⟩
  have hletter : Text.isWord 'i' = true := by decide
  simpa [Text.isWordBoundary, hletter] using hboundary

/-- The parts of an import statement up to its specifier, and the rest. -/
theorem exists_of_takes_importStatement {t r : List Char} {gs : List (List Char)}
    (h : Shape.importStatement.Takes last t r gs) : ∃ b, ∃ g : Gap, ∃ c, ∃ s : Specifier, ∃ x,
      t = b ++ ("import".toList ++ (g.chars ++ (c ++ (s.chars ++ x)))) ∧
      (lastAfter last b).any Text.isWord = false ∧ IsClause c := by
  rw [importStatement_eq] at h
  obtain ⟨_, x₁, _, _, rfl, -, ⟨_, x₂, _, _, rfl, -, ⟨_, x₃, _, _, rfl, -,
    ⟨_, x₄, _, _, rfl, -, ⟨_, x₅, _, _, rfl, -, hhead, -⟩, -⟩, -⟩, -⟩, -⟩ := h
  obtain ⟨-, b, g, c, s, rfl, -, hbefore, hclause⟩ := exists_of_takes_importHead hhead
  exact ⟨b, g, c, s, x₅ ++ x₄ ++ x₃ ++ x₂ ++ x₁, by simp, hbefore, hclause⟩

/-- An import statement quotes its specifier and nothing before. -/
theorem exists_specifier_of_takes_importHead {t r : List Char} {gs : List (List Char)}
    (h : importHead.Takes last t r gs) : gs = [] ∧ ∃ u, ∃ s : Specifier, t = u ++ s.chars ∧
      ∀ c ∈ u, (!Shape.isQuote c) = true := by
  obtain ⟨hgs, b, g, c, s, rfl, hspaces, -, hparts⟩ := exists_of_takes_importHead h
  refine ⟨hgs, b ++ ("import".toList ++ (g.chars ++ c)), s, by simp, ?_⟩
  -- Before the specifier: indentation, `import`, gap and clause.
  intro d hd
  simp only [List.mem_append] at hd
  rcases hd with hd | hd | hd | hd
  · exact not_isQuote_of_indent (hspaces d hd)
  · exact not_isQuote_of_mem_import d hd
  · exact not_isQuote_of_mem_gap g.toWhite d hd
  · exact hparts.not_isQuote d hd

/-- A word that begins a line, perhaps behind spaces and tabs, begins at a word boundary. -/
theorem isWordBoundary_of_indent (hlast : AtLine last) (s : Spaces) {c : Char} {r : List Char}
    (hc : Text.isWord c = true) :
    Text.isWordBoundary (lastAfter last s.chars) (c :: r).head? = true := by
  -- The character before is a space, a tab or a line feed, or there is none.
  have hbefore : (lastAfter last s.chars).any Text.isWord = false := by
    rw [Option.any_eq_false]
    intro d hd
    rcases Option.or_eq_some_iff.mp hd with hmem | ⟨-, hd⟩
    · have hspace := s.indent d (List.mem_of_getLast? hmem)
      simp only [Bool.or_eq_true, beq_iff_eq] at hspace
      rcases hspace with rfl | rfl <;> decide
    · rw [hlast d hd]
      decide
  rw [Text.isWordBoundary, hbefore, List.head?_cons, Option.any_some, hc]
  rfl

theorem takes_importHead {b : List Char} (hindent : ∀ r, Shape.lineIndent.Takes last b r [])
    (hboundary : Text.isWordBoundary (lastAfter last b) (some 'i') = true) (gap : Gap)
    (clause : Clause) (s : Specifier) (r : List Char) : importHead.Takes last
      (b ++ "import".toList ++ gap.chars ++ clause.chars ++ s.chars) r [] := by
  refine ⟨_, _, [], [], rfl, rfl, ⟨_, _, [], [], rfl, rfl, ?_, takes_importClause clause _ _⟩,
    takes_quotedSpecifier.mpr ⟨⟨s, rfl⟩, rfl⟩⟩
  refine takes_seq_blanks1.mpr ⟨_, gap, rfl, takes_seq_literal.mpr ⟨_, rfl, ?_⟩⟩
  exact ⟨b, [], [], [], (List.append_nil b).symm, rfl, hindent _, ⟨rfl, rfl, hboundary⟩⟩

/-- Where an import statement can be taken up to its specifier, it is taken so: its specifier
    is the first that is quoted. -/
theorem prefers_importHead_of_takes {t r : List Char} (htakes : importHead.Takes last t r []) :
    importHead.Prefers last t r [] := by
  refine prefers_of_unique htakes ?_
  intro t' r' gs' heq htakes'
  obtain ⟨-, u, v, rfl, hu⟩ := exists_specifier_of_takes_importHead htakes
  obtain ⟨rfl, u', v', rfl, hu'⟩ := exists_specifier_of_takes_importHead htakes'
  rw [List.append_assoc, List.append_assoc] at heq
  -- Both texts begin with a run without quotes, and the specifier stands behind it.
  obtain ⟨rfl, hspec⟩ := run_unique heq hu hu' (v.stops (fun _ => not_isQuote_eq_false) r)
    (v'.stops (fun _ => not_isQuote_eq_false) r')
  rw [Specifier.unique hspec]
  exact ⟨rfl, rfl⟩

theorem prefers_importHead (hlast : AtLine last) (indent : Spaces) (gap : Gap) (clause : Clause)
    (s : Specifier) (r : List Char) : importHead.Prefers last
      (indent.chars ++ "import".toList ++ gap.chars ++ clause.chars ++ s.chars) r [] := by
  refine prefers_importHead_of_takes (takes_importHead (fun r => .inl ?_) ?_ gap clause s r)
  · -- The indentation belongs to the statement, since it begins a line.
    exact ⟨[], indent.chars, [], [], rfl, rfl, ⟨rfl, rfl, hlast.atLineStart _⟩, indent.indent, rfl⟩
  · exact isWordBoundary_of_indent (r := []) hlast indent (by decide)

theorem prefers_no_indent {c : Char} (hc : (c == ' ' || c == '\t') = false) (last : Option Char)
    (r : List Char) : Shape.indent.Prefers last [] (c :: r) [] :=
  prefers_indent ⟨[], by simp⟩ (stops_cons.mpr hc)

theorem prefers_no_char {c d : Char} (h : d ≠ c) (last : Option Char) (r : List Char) :
    (optional (char c)).Prefers last [] (d :: r) [] :=
  prefers_optional_nothing (fails_char h last r)

/-- An import statement goes up to the beginning of the next line. -/
theorem prefers_importStatement (hlast : AtLine last) (indent : Spaces) (gap : Gap)
    (clause : Clause) (s : Specifier) (ending : Ending) (r : List Char) :
    Shape.importStatement.Prefers last (indent.chars ++ "import".toList ++ gap.chars ++
      clause.chars ++ s.chars ++ ending.chars ++ ['\n']) r [] := by
  obtain ⟨before, semicolon⟩ := ending
  rw [importStatement_eq]
  -- Behind the specifier every part takes what it can, up to the line feed.
  cases semicolon with
  | none =>
    have hhead := prefers_importHead hlast indent gap clause s (before.chars ++ '\n' :: r)
    have hbefore := hhead.seq (prefers_indent before (stops_cons.mpr (by decide)))
    have htail := ((hbefore.seq_nothing (prefers_no_char (c := ';') (by decide) _ r)).seq_nothing
      (prefers_no_indent (by decide) _ r)).seq_nothing
      (prefers_no_char (c := '\r') (by decide) _ r)
    have hline := htail.seq (u := ['\n']) (prefers_char '\n' _ r).optional
    simpa [Ending.chars] using hline
  | some after =>
    have hhead := prefers_importHead hlast indent gap clause s
      (before.chars ++ ';' :: (after.chars ++ '\n' :: r))
    have hbefore := hhead.seq (prefers_indent before (stops_cons.mpr (by decide)))
    have hsemicolon := hbefore.seq (u := [';']) (prefers_char ';' _ _).optional
    have hafter := hsemicolon.seq (prefers_indent after (stops_cons.mpr (by decide)))
    have htail := hafter.seq_nothing (prefers_no_char (c := '\r') (by decide) _ r)
    have hline := htail.seq (u := ['\n']) (prefers_char '\n' _ r).optional
    simpa [Ending.chars] using hline

/-- What the first pass leaves of an item. -/
theorem reads_importStatement {i : Item} (hi : i.WellFormed) (hlast : AtLine last)
    (r : List Char) : Shape.importStatement.Reads (fun _ => []) last i.text r i.unimported
      i.importGroups := by
  have hexport : Shape.importStatement.Reads (fun _ => []) last
      ("export".toList ++ i.body ++ ['\n']) r ("export".toList ++ i.body ++ ['\n']) [] :=
    reads_exported_of_import ledBy_importStatement hi.1 r
  cases i with
  | plain text => exact reads_plain_of_import ledBy_importStatement hi.1 r
  | importing indent gap clause s ending =>
    have hmatch := prefers_importStatement hlast indent gap clause s ending r
    rw [Item.text_importing]
    simp only [List.append_assoc] at hmatch ⊢
    exact reads_hit hmatch (List.append_ne_nil_of_right_ne_nil _ (List.cons_ne_nil _ _))
  | defaultFunction => exact hexport
  | defaultValue => exact hexport
  | declaration => exact hexport
  | list => exact hexport

/-- The first pass takes import statements out. -/
theorem erase_importStatement {items : List Item} (h : ∀ i ∈ items, i.WellFormed) :
    Shape.importStatement.erase (textOf items) = items.flatMap Item.unimported := by
  have hreads : Shape.importStatement.Reads (fun _ => []) none (textOf items) []
      (items.flatMap Item.unimported) (items.flatMap Item.importGroups) := by
    refine reads_flatMap (fun i => endsLine_append_lineFeed _) ?_ atLine_none
    intro i behind hbehind last hlast
    exact reads_importStatement (h i (hbehind.mem List.mem_cons_self)) hlast _
  exact hreads.replace_eq

end LivePreview.Script
