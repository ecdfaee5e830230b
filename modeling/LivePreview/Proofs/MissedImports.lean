/-
  LivePreview.Proofs.MissedImports

  Imports of a single name that are taken out, and whether they are recorded.

  Stripping and recording look for an import with patterns of their own, and they differ in
  two places: the name that is recorded is made of ASCII characters, and white space has to
  stand behind its `from`.  An import without it is taken out and not recorded, so nothing
  binds its name any more (`Statement.stripped_and_recorded_iff`).
-/

import LivePreview.Proofs.RecordedNames
import LivePreview.Proofs.StatementPlace

namespace LivePreview.Script

open Pattern Text

variable {u v : List Char}

/-! ## Imports of a single name -/

/-- A character of a name as statements are taken out: a word character or a dollar sign. -/
def isNamePart (c : Char) : Bool := c == '$' || isWord c

/-- A name in any script, not only in ASCII. -/
structure LooseName where
  chars : List Char
  nonempty : chars ≠ []
  isNamePart_of_mem : ∀ c ∈ chars, isNamePart c = true

/-- The name and white space, as the text of a clause. -/
def LooseName.clauseText (n : LooseName) (before : Gap) : ClauseText where
  chars := n.chars ++ before.chars
  nonempty := List.append_ne_nil_of_left_ne_nil n.nonempty _
  isClausePart_of_mem := by
    intro c hc
    rcases List.mem_append.mp hc with hc | hc
    · have hpart := n.isNamePart_of_mem c hc
      simp only [isNamePart, Bool.or_eq_true] at hpart
      rcases hpart with hpart | hpart <;> simp [Shape.isClausePart, hpart]
    · exact isClausePart_of_isBlank (before.blank c hc)

/-- The import of a single name. -/
def Statement.ofName (gap : Gap) (n : LooseName) (before : Gap) (after : White)
    (s : Specifier) : Statement :=
  ⟨gap, .other (n.clauseText before) after, s⟩

/-- What stands between `import` and the specifier. -/
def nameWords (gap : Gap) (n : LooseName) (before : Gap) (after : White) : List Char :=
  gap.chars ++ n.chars ++ before.chars ++ "from".toList ++ after.chars

theorem Statement.chars_ofName (gap : Gap) (n : LooseName) (before : Gap) (after : White)
    (s : Specifier) (v : List Char) : (ofName gap n before after s).chars ++ v =
      "import".toList ++ nameWords gap n before after ++ (s.chars ++ v) := by
  rw [chars_append]
  simp only [ofName, Clause.chars, LooseName.clauseText, nameWords, List.append_assoc]

/-! ## What is recorded of them -/

/-- With an ASCII name and with white space behind `from` the import is recorded. -/
theorem defaultImports_of_name (hu : Lacks "import".toList u) (g : Gap) (n : Name)
    (before after : Gap) {s : Specifier} (hs : s.text ≠ []) (hv : Lacks "import".toList v) :
    ModuleRecord.defaultImports (u ++ ("import".toList ++ g.chars ++ n.chars ++ before.chars ++
      "from".toList ++ after.chars ++ s.chars ++ v)) =
        [⟨String.ofList n.chars, String.ofList s.text⟩] := by
  have hdivides : Divides "import".toList u ("import".toList ++ g.chars ++ n.chars ++
      before.chars ++ "from".toList ++ after.chars ++ s.chars ++ v) := by
    simp only [List.append_assoc]
    exact divides_import u _
  have hread := reads_single (f := Match.text)
    (begins_defaultImport.reads_before hu hdivides)
    (prefers_defaultImport (lastAfter none u) g n before after s hs v) (by simp)
    (begins_defaultImport.ledBy.reads_rest hv)
  exact hread.map_allMatches fun gs =>
    ImportBinding.mk (String.ofList (gs.getD 0 [])) (String.ofList (gs.getD 1 []))

/-- Where white space has to end the words, it is what ends them. -/
theorem after_eq {gap g h k : Gap} {n : LooseName} {m : Name} {before : Gap} {after : White}
    {y : List Char} (heq : "import".toList ++ nameWords gap n before after =
      y ++ ("import".toList ++ (g.chars ++ (m.chars ++ (h.chars ++ ("from".toList ++ k.chars)))))) :
    after.chars = k.chars := by
  have hend : ∀ w : List Char, Stops isBlank (w ++ "from".toList).reverse := by
    intro w
    rw [List.reverse_append]
    exact stops_cons.mpr (by decide)
  have hright : "import".toList ++ gap.chars ++ n.chars ++ before.chars ++ "from".toList ++
      after.chars = y ++ "import".toList ++ g.chars ++ m.chars ++ h.chars ++ "from".toList ++
        k.chars := by
    simpa only [nameWords, List.append_assoc] using heq
  exact (run_unique_right hright after.blank k.blank (hend _) (hend _)).2

/-- A quoted text does not begin before the end of another one that holds no quote. -/
theorem suffix_behind_specifier {s : Specifier} {q : Char} {x : List Char}
    (hq : Shape.isQuote q = true) (h : q :: x <:+ s.text ++ s.closing :: v) : x <:+ v := by
  have hbehind : q :: x <:+ s.closing :: v := by
    rcases suffix_append_cases h with hin | ⟨w, hw, hne, hsplit⟩
    · exact hin
    · -- The quote would stand in the text of the specifier.
      obtain ⟨c, w, rfl⟩ := List.exists_cons_of_ne_nil hne
      obtain ⟨rfl, -⟩ := List.cons.inj hsplit
      have hpart := s.isSpecifierPart_of_mem q (hw.subset List.mem_cons_self)
      rw [isQuote_of_isSpecifierPart hpart] at hq
      cases hq
  rcases List.suffix_cons_iff.mp hbehind with heq | hin
  · rw [(List.cons.inj heq).2]
  · exact (List.suffix_cons q x).trans hin

theorem not_isQuote_of_mem_nameWords (gap : Gap) (n : LooseName) (before : Gap) (after : White) :
    ∀ c ∈ "import".toList ++ nameWords gap n before after, (!Shape.isQuote c) = true := by
  intro c hc
  simp only [nameWords, List.mem_append] at hc
  rcases hc with hc | (((hc | hc) | hc) | hc) | hc
  · exact not_isQuote_of_mem_import c hc
  · exact not_isQuote_of_mem_gap gap.toWhite c hc
  · have hpart := (n.clauseText before).isClausePart_of_mem c (List.mem_append_left _ hc)
    rw [isQuote_of_isClausePart hpart]
    rfl
  · exact not_isQuote_of_mem_gap before.toWhite c hc
  · exact not_isQuote_of_mem_from c hc
  · exact not_isQuote_of_mem_gap after c hc

/-- Two imports at one place have the same words before the first quote. -/
theorem words_eq_of_read {z x : List Char} {g h k : Gap} {m : Name} {q : Char} {s : Specifier}
    (hz : ∀ c ∈ z, (!Shape.isQuote c) = true) (hq : Shape.isQuote q = true)
    (heq : z ++ (s.chars ++ v) = "import".toList ++ (g.chars ++ (m.chars ++ (h.chars ++
      ("from".toList ++ (k.chars ++ q :: x)))))) :
    z = "import".toList ++ (g.chars ++ (m.chars ++ (h.chars ++ ("from".toList ++ k.chars)))) := by
  have hsplit : z ++ (s.chars ++ v) = "import".toList ++ (g.chars ++ (m.chars ++ (h.chars ++
      ("from".toList ++ k.chars)))) ++ q :: x := by
    rw [heq]
    simp only [List.append_assoc]
  exact (run_unique hsplit hz (not_isQuote_of_mem_words g m h k)
    (s.stops (fun _ => not_isQuote_eq_false) v) (stops_cons.mpr (not_isQuote_eq_false hq))).1

/-- A specifier whose text comes again in what follows it, where no `import` is, holds none
    itself. -/
theorem lacks_specifier {s : Specifier} (hv : Lacks "import".toList v) (hagain : s.text <:+: v) :
    Lacks "import".toList (s.text ++ s.closing :: v) := by
  have hclosing : s.closing ∉ "import".toList := by
    intro hc
    have hno := not_isQuote_of_mem_import _ hc
    rw [s.closing_isQuote] at hno
    cases hno
  exact (hv.mono hagain).append_cons hclosing hv

/-- An import that is recorded with the name and the specifier of a statement has that name,
    and white space behind its `from`. -/
theorem recordable_of_mem {gap before : Gap} {n : LooseName} {after : White} {s : Specifier}
    (hu : Lacks "import".toList u) (hv : Lacks "import".toList v)
    (h : ⟨String.ofList n.chars, String.ofList s.text⟩ ∈
      ModuleRecord.defaultImports (u ++ ((Statement.ofName gap n before after s).chars ++ v))) :
    isIdentifier n.chars = true ∧ after.chars ≠ [] := by
  obtain ⟨m, hm, hbinding⟩ := List.mem_map.mp h
  obtain ⟨-, a, r, hsource, htakes⟩ := exists_takes_of_mem_allMatches hm
  obtain ⟨g₁, n', g₂, g₃, q, spec, q', htext, hgroups, hq, -⟩ :=
    exists_of_takes_defaultImport htakes
  obtain ⟨hname, hspec⟩ : n'.chars = n.chars ∧ spec = s.text := by
    rw [Match.group, Match.group, hgroups, ImportBinding.mk.injEq] at hbinding
    exact ⟨String.ofList_injective hbinding.1, String.ofList_injective hbinding.2⟩
  refine ⟨hname ▸ n'.valid, ?_⟩
  have hplace : u ++ ("import".toList ++ nameWords gap n before after ++ (s.chars ++ v)) =
      a ++ ("import".toList ++ (g₁.chars ++ (n'.chars ++ (g₂.chars ++ ("from".toList ++
        (g₃.chars ++ q :: (s.text ++ q' :: r))))))) := by
    rw [← Statement.chars_ofName, hsource, htext, hspec]
    simp only [List.append_assoc, List.cons_append, List.nil_append]
  rcases exists_place_of_import hu hplace with ⟨y, z, -, hy, hz⟩ | ⟨y, hy⟩
  · -- Both texts are read up to the first quote.
    have hquote : ∀ c ∈ z, (!Shape.isQuote c) = true := by
      intro c hc
      exact not_isQuote_of_mem_nameWords gap n before after c (hy ▸ List.mem_append_right y hc)
    have hwords := words_eq_of_read hquote hq hz
    rw [after_eq (hwords ▸ hy)]
    exact g₃.nonempty
  · -- The specifier would stand behind the statement once more, and `import` in it or there.
    exfalso
    have hsuffix : q :: (s.text ++ q' :: r) <:+ s.text ++ s.closing :: v := by
      refine ⟨y ++ ("import".toList ++ (g₁.chars ++ (n'.chars ++ (g₂.chars ++ ("from".toList ++
        g₃.chars))))), ?_⟩
      rw [hy]
      simp only [List.append_assoc]
    have hagain : s.text <:+: v :=
      (List.prefix_append _ _).isInfix.trans (suffix_behind_specifier hq hsuffix).isInfix
    exact lacks_specifier hv hagain ⟨y, _, by rw [hy, List.append_assoc]⟩

/-! ## Taken out and recorded -/

namespace Statement

/-- Behind a text that no word character ends, the import of a name is taken out with the
    indentation before it and the end of its line.  It is recorded if and only if the name is
    an ASCII identifier and white space stands behind `from`. -/
theorem stripped_and_recorded_iff (path slot : String) (hu : Keywordless u) (gap : Gap)
    (n : LooseName) (before : Gap) (after : White) {s : Specifier} (hs : s.text ≠ [])
    (hv : Keywordless v) :
    (u.getLast?.any isWord = false →
      StrippedModule.ofSource path
          (String.ofList (u ++ ((ofName gap n before after s).chars ++ v))) slot =
        ⟨path, String.ofList (beforeStatement u ++ afterStatement v), false⟩) ∧
    (⟨String.ofList n.chars, String.ofList s.text⟩ ∈ (ModuleRecord.ofSource path
        (String.ofList (u ++ ((ofName gap n before after s).chars ++ v)))).imports ↔
      isIdentifier n.chars = true ∧ after.chars ≠ []) := by
  refine ⟨fun hend => StrippedModule.ofSource_statement path slot hu hend _ hv, ?_⟩
  have himports : (ModuleRecord.ofSource path (String.ofList
      (u ++ ((ofName gap n before after s).chars ++ v)))).imports =
        ModuleRecord.defaultImports (u ++ ((ofName gap n before after s).chars ++ v)) := by
    rw [ModuleRecord.ofSource, String.toList_ofList (l := u ++ _)]
  rw [himports]
  constructor
  · exact recordable_of_mem hu.1 hv.1
  · rintro ⟨hname, hafter⟩
    have hrecorded := defaultImports_of_name hu.1 gap ⟨n.chars, hname⟩ before ⟨after, hafter⟩
      hs hv.1
    have htext : u ++ ((ofName gap n before after s).chars ++ v) =
        u ++ ("import".toList ++ gap.chars ++ n.chars ++ before.chars ++ "from".toList ++
          after.chars ++ s.chars ++ v) := by
      rw [chars_ofName]
      simp only [nameWords, List.append_assoc]
    rw [htext, hrecorded]
    exact List.mem_singleton_self _

def cardSpecifier : Specifier := .quoted "./Card".toList (List.all_eq_true.mp (by decide))

/-- An import of a name behind other text on its line is taken out and recorded. -/
theorem stripped_and_recorded_iff_sharedLine :
    StrippedModule.ofSource "App.js" "'use client'; import Card from './Card';\nCard();\n" "slot" =
      ⟨"App.js", "'use client'; Card();\n", false⟩ ∧
    ⟨"Card", "./Card"⟩ ∈ (ModuleRecord.ofSource "App.js"
      "'use client'; import Card from './Card';\nCard();\n").imports := by
  have h := stripped_and_recorded_iff "App.js" "slot" (u := "'use client'; ".toList)
    (v := ";\nCard();\n".toList) (s := cardSpecifier) (by decide) .space
    ⟨"Card".toList, by decide, List.all_eq_true.mp (by decide)⟩ .space Gap.space.toWhite
    (by decide) (by decide)
  exact ⟨h.1 (by decide), h.2.mpr ⟨by decide, by decide⟩⟩

/-- Without white space behind `from` an import is taken out and not recorded. -/
theorem exists_stripped_unrecorded :
    StrippedModule.ofSource "App.js" "import X from'./s';\nX();\n" "slot" =
      ⟨"App.js", "X();\n", false⟩ ∧
    (ModuleRecord.ofSource "App.js" "import X from'./s';\nX();\n").imports = [] := by
  have hspecifier : ∀ c ∈ "./s".toList, Shape.isSpecifierPart c = true :=
    List.all_eq_true.mp (by decide)
  have hstripped := StrippedModule.ofSource_statement "App.js" "slot" (u := [])
    (v := ";\nX();\n".toList) (by decide) (by decide) ⟨.space, .other ⟨"X ".toList, by decide,
      List.all_eq_true.mp (by decide)⟩ .empty, .quoted "./s".toList hspecifier⟩ (by decide)
  exact ⟨hstripped, by decide⟩

end Statement

end LivePreview.Script
