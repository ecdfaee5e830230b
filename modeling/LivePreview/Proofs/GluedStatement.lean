/-
  LivePreview.Proofs.GluedStatement

  Import statements right behind a word.

  There `import` is only the end of a longer word, and the statement stays.  Its name may hold
  `import` or `export` once more, but a name and `from` go on like no module syntax
  (`NotBehindName`), so nothing else is rewritten either (`StrippedModule.ofSource_glued`).
-/

import LivePreview.Proofs.StatementPlace

namespace LivePreview.Text

open Pattern

/-- A word that does not hold the character stands before it or behind it. -/
theorem place_of_word {c : Char} {w u v a x : List Char} (hc : c ∉ w)
    (h : u ++ c :: v = a ++ (w ++ x)) :
    (∃ z, u = a ++ (w ++ z) ∧ x = z ++ c :: v) ∨ ∃ y, v = y ++ (w ++ x) := by
  have hbefore : ∀ z, w ++ x = z ++ c :: v → ∃ z', z = w ++ z' ∧ x = z' ++ c :: v := by
    intro z hz
    obtain ⟨z', rfl⟩ := prefix_of_prefix_append_cons (hz ▸ List.prefix_append w x) hc
    rw [List.append_assoc, List.append_cancel_left_eq] at hz
    exact ⟨z', rfl, hz⟩
  rcases List.append_eq_append_iff.mp h with ⟨y, rfl, hy⟩ | ⟨z, rfl, hz⟩
  · cases y with
    | nil =>
      obtain ⟨z, hz, hx⟩ := hbefore [] hy.symm
      exact .inl ⟨z, by rw [← hz, List.append_nil, List.append_nil], hx⟩
    | cons d y => exact .inr ⟨y, (List.cons.inj hy).2⟩
  · obtain ⟨z, rfl, hx⟩ := hbefore z hz
    exact .inl ⟨z, rfl, hx⟩

end LivePreview.Text

namespace LivePreview.Script

open Pattern Text

variable {u v z : List Char} {n : Name} {s : Specifier} {last : Option Char}

/-! ## The import of a name -/

/-- The import of a name, with single spaces. -/
def Statement.spaced (n : Name) (s : Specifier) : Statement :=
  ⟨.space, .name n .space .space, s⟩

/-- What stands behind `import` and a space. -/
def spacedWords (n : Name) (s : Specifier) (v : List Char) : List Char :=
  n.chars ++ ' ' :: ("from".toList ++ ' ' :: (s.chars ++ v))

theorem Statement.chars_spaced (n : Name) (s : Specifier) (v : List Char) :
    (spaced n s).chars ++ v = "import".toList ++ ' ' :: spacedWords n s v := by
  rw [chars_append]
  simp only [spaced, Clause.chars, spacedWords, Gap.space, List.append_assoc, List.cons_append,
    List.nil_append]

/-- A keyword behind the first space stands in the name. -/
theorem place_in_name {w x y : List Char} (hw : w = "import".toList ∨ w = "export".toList)
    (hs : Keywordless s.text) (hv : Keywordless v) (h : spacedWords n s v = y ++ (w ++ x)) :
    ∃ z, (∀ c ∈ z, isIdentifierPart c = true) ∧
      x = z ++ ' ' :: ("from".toList ++ ' ' :: (s.chars ++ v)) := by
  have hquoted : Keywordless (s.chars ++ v) := by
    have hquote : ∀ {q}, Shape.isQuote q = true → isWord q = false :=
      fun hq => (Bool.or_eq_false_iff.mp (isWord_of_isQuote hq)).2
    have hnil : Keywordless [] := by decide
    have hspec := hnil.append_cons (hquote s.opening_isQuote)
      (hs.append_cons (hquote s.closing_isQuote) hv)
    simpa [Specifier.chars] using hspec
  have hfrom : Keywordless ("from".toList ++ ' ' :: (s.chars ++ v)) :=
    Keywordless.append_cons (by decide) (by decide) hquoted
  have hspace : ' ' ∉ w := by rcases hw with rfl | rfl <;> decide
  rcases place_of_word hspace h with ⟨z, hz, rfl⟩ | ⟨y', hy'⟩
  · refine ⟨z, ?_, rfl⟩
    intro c hc
    apply n.isIdentifierPart_of_mem
    rw [hz]
    exact List.mem_append_right _ (List.mem_append_right _ hc)
  · have hinfix : w <:+: "from".toList ++ ' ' :: (s.chars ++ v) :=
      ⟨y', x, by rw [hy', List.append_assoc]⟩
    rcases hw with rfl | rfl
    · exact absurd hinfix hfrom.1
    · exact absurd hinfix hfrom.2

/-- The end of a name and `from` stand behind a gap if nothing is left of the name. -/
theorem eq_behind_gap {g : Gap} {r r' : List Char} (hz : ∀ c ∈ z, isIdentifierPart c = true)
    (h : z ++ ' ' :: ("from".toList ++ r) = g.chars ++ r') : "from".toList ++ r = r' := by
  obtain ⟨c, g', hg⟩ := List.exists_cons_of_ne_nil g.nonempty
  have hblank : ∀ d ∈ c :: g', isBlank d = true := hg ▸ g.blank
  rw [hg] at h
  cases z with
  | cons d z =>
    -- A character of a name is not white space.
    obtain rfl : d = c := (List.cons.inj h).1
    have hd := isBlank_of_isIdentifierPart (hz d List.mem_cons_self)
    rw [hblank d List.mem_cons_self] at hd
    cases hd
  | nil =>
    have hrest : "from".toList ++ r = g' ++ r' := (List.cons.inj h).2
    cases g' with
    | nil => exact hrest
    | cons d g' =>
      obtain rfl : 'f' = d := (List.cons.inj hrest).1
      exact absurd (hblank 'f' (by simp)) (by decide)

/-! ## Nothing is matched in the name -/

/-- A clause before `from` is more than the gap behind it. -/
theorem not_isClause_from : ¬ IsClause ("from".toList ++ [' ']) := by
  rintro (h | ⟨c, w, h⟩)
  · cases h
  · obtain ⟨d, c', hc⟩ := List.exists_cons_of_ne_nil c.nonempty
    rw [hc] at h
    -- Behind the first character there is no further `f`.
    have htail : "rom ".toList = c' ++ "from".toList ++ w.chars := (List.cons.inj h).2
    have hf : 'f' ∈ "rom ".toList := by
      rw [htail]
      simp
    revert hf
    decide

/-- Behind a name that ends in `import` there is no specifier before the end of the clause. -/
theorem not_specifier_behind_name {g : Gap} {c r : List Char} {s' : Specifier}
    (hz : ∀ c ∈ z, isIdentifierPart c = true) (hc : IsClause c) :
    z ++ ' ' :: ("from".toList ++ ' ' :: (s.chars ++ v)) ≠ g.chars ++ (c ++ (s'.chars ++ r)) := by
  intro h
  have hrest := eq_behind_gap hz h
  -- Both texts are read up to the first quote.
  have hsplit : "from".toList ++ [' '] ++ (s.chars ++ v) = c ++ (s'.chars ++ r) := by
    rw [← hrest, List.append_assoc]
    rfl
  have hclause := (run_unique hsplit (List.all_eq_true.mp (by decide)) hc.not_isQuote
    (s.stops (fun _ => not_isQuote_eq_false) v)
    (s'.stops (fun _ => not_isQuote_eq_false) r)).1
  exact not_isClause_from (hclause ▸ hc)

/-- Behind a word no import is matched. -/
theorem reads_glued_import {f : Match → List Char} (hu : Lacks "import".toList u)
    (hend : u.getLast?.any isWord = true) (hs : Keywordless s.text) (hv : Keywordless v) :
    Shape.importStatement.Reads f none (u ++ ((Statement.spaced n s).chars ++ v)) []
      (u ++ ((Statement.spaced n s).chars ++ v)) [] := by
  apply reads_of_no_match
  intro a t r gs hsplit htakes
  obtain ⟨b, g, c, s', x, rfl, hbefore, hclause⟩ := exists_of_takes_importStatement htakes
  rw [Statement.chars_spaced, ← List.append_assoc] at hsplit
  have hplace : u ++ "import".toList ++ ' ' :: spacedWords n s v =
      a ++ b ++ ("import".toList ++ (g.chars ++ (c ++ (s'.chars ++ (x ++ r))))) := by
    rw [hsplit]
    simp only [List.append_assoc]
  rcases place_of_word (by decide) hplace with ⟨z, hz, -⟩ | ⟨y, hy⟩
  · -- The word before the first space is not at a word boundary.
    have hfirst : u <+: a ++ b :=
      hu.isPrefix_of_isPrefix (divides_import u []) hz (List.prefix_append _ _)
    have hlength : (a ++ b).length ≤ u.length := by
      have h := congrArg List.length hz
      simp only [List.length_append] at h ⊢
      omega
    rw [← lastAfter_append, ← hfirst.eq_of_length_le hlength, lastAfter, Option.or_none,
      hend] at hbefore
    cases hbefore
  · obtain ⟨z, hz, hwords⟩ := place_in_name (.inl rfl) hs hv hy
    exact not_specifier_behind_name hz hclause hwords.symm

/-- No text that begins so is the end of a name and what stands behind it. -/
def NotBehindName (y : List Char) : Prop :=
  ∀ z, (∀ c ∈ z, isIdentifierPart c = true) → ∀ r r', z ++ ' ' :: ("from".toList ++ r) ≠ y ++ r'

theorem notBehindName_gap (g : Gap) {y : List Char} (hy : clash "from".toList y = true) :
    NotBehindName (g.chars ++ y) := by
  intro z hz r r' h
  rw [List.append_assoc] at h
  exact append_ne_of_clash hy r r' (eq_behind_gap hz h)

/-- Neither a brace nor a star goes on a name. -/
theorem notBehindName_listed (w : White) {d : Char} (hd : d = '\x7b' ∨ d = '*')
    (y : List Char) : NotBehindName (w.chars ++ d :: y) := by
  have hclash : clash "from".toList (d :: y) = true := by
    rcases hd with rfl | rfl <;> rfl
  by_cases hw : w.chars = []
  · intro z hz r r' h
    rw [hw] at h
    cases z with
    | nil =>
      obtain rfl : ' ' = d := (List.cons.inj h).1
      simp at hd
    | cons c z =>
      obtain rfl : c = d := (List.cons.inj h).1
      have hc := hz c List.mem_cons_self
      rcases hd with rfl | rfl <;> exact absurd hc (by decide)
  · exact notBehindName_gap ⟨w, hw⟩ hclash

/-- What an export goes on with behind the word is not the end of a name. -/
theorem exists_notBehindName_of_takes {p : Pattern} (hp : p ∈ StrippedModule.exportShapes)
    {t r : List Char} {gs : List (List Char)} (h : p.Takes last t r gs) :
    ∃ b y, t = b ++ ("export".toList ++ y) ∧ NotBehindName y := by
  simp only [StrippedModule.exportShapes, List.mem_cons, List.not_mem_nil, or_false] at hp
  rcases hp with rfl | rfl | rfl | rfl
  · obtain ⟨b, w, d, t, rfl, -, hd⟩ := exists_of_takes_exportList h
    exact ⟨b, w.chars ++ d :: t, rfl, notBehindName_listed w hd t⟩
  · obtain ⟨g₁, g₂, g₃, m, rfl, -⟩ := takes_defaultFunction.mp h
    refine ⟨[], g₁.chars ++ ("default".toList ++ (g₂.chars ++ ("function".toList ++
      (g₃.chars ++ m.chars)))), ?_, notBehindName_gap g₁ rfl⟩
    simp only [List.append_assoc, List.nil_append]
  · obtain ⟨g₁, g₂, rfl, -⟩ := takes_defaultExpression.mp h
    refine ⟨[], g₁.chars ++ ("default".toList ++ g₂.chars), ?_, notBehindName_gap g₁ rfl⟩
    simp only [List.append_assoc, List.nil_append]
  · obtain ⟨g, k, rfl, -⟩ := exists_keyword_of_takes_exportedDeclaration h
    refine ⟨[], g.chars ++ k.chars, ?_, notBehindName_gap g ?_⟩
    · simp only [List.append_assoc, List.nil_append]
    · cases k <;> rfl

/-- Nor is an export matched. -/
theorem reads_glued_export {p : Pattern} {f : Match → List Char}
    (hp : p ∈ StrippedModule.exportShapes) (hu : Lacks "export".toList u)
    (hs : Keywordless s.text) (hv : Keywordless v) :
    p.Reads f none (u ++ ((Statement.spaced n s).chars ++ v)) []
      (u ++ ((Statement.spaced n s).chars ++ v)) [] := by
  apply reads_of_no_match
  intro a t r gs hsplit htakes
  obtain ⟨b, y, rfl, hy⟩ := exists_notBehindName_of_takes hp htakes
  rw [Statement.chars_spaced, ← List.append_assoc] at hsplit
  have hplace : u ++ "import".toList ++ ' ' :: spacedWords n s v =
      a ++ b ++ ("export".toList ++ (y ++ r)) := by
    rw [hsplit]
    simp only [List.append_assoc]
  rcases place_of_word (by decide) hplace with ⟨x, hx, -⟩ | ⟨x, hx⟩
  · have hlacks : Lacks "export".toList (u ++ "import".toList) :=
      hu.append (by decide) (.inr (by decide))
    exact hlacks ⟨a ++ b, x, by rw [hx, List.append_assoc (a ++ b)]⟩
  · obtain ⟨z, hz, hwords⟩ := place_in_name (.inr rfl) hs hv hx
    exact hy z hz _ r hwords.symm

/-- A source whose module syntax is one import right behind a word is its own code. -/
theorem StrippedModule.ofSource_glued (path slot : String) (hu : Keywordless u)
    (hend : u.getLast?.any isWord = true) (n : Name) (hs : Keywordless s.text)
    (hv : Keywordless v) :
    ofSource path (String.ofList (u ++ ((Statement.spaced n s).chars ++ v))) slot =
      ⟨path, String.ofList (u ++ ((Statement.spaced n s).chars ++ v)), false⟩ := by
  refine ofSource_of_reads path slot ?_ fun p hp f => reads_glued_export hp hu.2 hs hv
  rw [String.toList_ofList (l := u ++ _)]
  exact (reads_glued_import hu.1 hend hs hv).replace_eq

end LivePreview.Script
