/-
  LivePreview.Proofs.JoinedLines

  Import statements in line comments.

  A statement that stands in a comment is taken out like any other, and the end of its line
  with it.  What is left of the comment and the next line are one line then, so the next line
  becomes a part of the comment.  It stays a line only where nothing is taken out
  (`StrippedModule.ofSource_commented`).
-/

import LivePreview.Proofs.GluedStatement
import LivePreview.Proofs.ResolutionCode

namespace LivePreview.Script

open Pattern Text

variable {p t : List Char}

/-! ## The line before and the line behind -/

/-- The end of a line, as two systems write it. -/
inductive LineBreak where
  | lineFeed
  | returnLineFeed

def LineBreak.chars : LineBreak → List Char
  | lineFeed => ['\n']
  | returnLineFeed => ['\r', '\n']

/-- Of a line with more than indentation on it nothing goes before a statement. -/
theorem beforeStatement_of_line (hline : '\n' ∉ p) {c : Char} (hc : c ∈ p)
    (hindent : isIndent c = false) : beforeStatement p = p := by
  rw [beforeStatement, if_neg]
  -- What is left of the line ends in a character that is no line feed.
  have hne : p.rdropWhile isIndent ≠ [] := by
    intro hnil
    have hall := List.rdropWhile_eq_nil_iff.mp hnil c hc
    rw [hindent] at hall
    cases hall
  have hmem : (p.rdropWhile isIndent).getLast hne ∈ p :=
    (List.rdropWhile_prefix isIndent p).subset (List.getLast_mem hne)
  rw [List.getLast?_eq_some_getLast hne, Option.all_some, beq_iff_eq]
  intro hfeed
  exact hline (hfeed ▸ hmem)

/-- Behind a semicolon a statement ends with its line. -/
theorem afterStatement_line (b : LineBreak) (t : List Char) :
    afterStatement (';' :: (b.chars ++ t)) = t := by
  cases b <;> rfl

theorem Keywordless.behind_break (ht : Keywordless t) (b : LineBreak) :
    Keywordless (';' :: (b.chars ++ t)) := by
  have hnil : Keywordless [] := by decide
  have hfeed : Keywordless ('\n' :: t) := hnil.append_cons (by decide) ht
  have hbreak : Keywordless (b.chars ++ t) := by
    cases b with
    | lineFeed => exact hfeed
    | returnLineFeed => exact hnil.append_cons (by decide) hfeed
  exact hnil.append_cons (by decide) hbreak

theorem lines_lineFeed (ht : '\n' ∉ t) : lines (· == '\n') (t ++ ['\n']) = [t] := by
  have hinside : ∀ c ∈ t, (c == '\n') = false := by
    intro c hc
    rw [beq_eq_false_iff_ne]
    rintro rfl
    exact ht hc
  exact lines_append_end hinside (beq_self_eq_true '\n') []

/-- A line with a statement on it, and the next line. -/
def lineAndNext (p : List Char) (i : Statement) (b : LineBreak) (t : List Char) : List Char :=
  p ++ (i.chars ++ ';' :: (b.chars ++ t))

theorem mem_lines_lineAndNext (p : List Char) (i : Statement) (b : LineBreak) (ht : '\n' ∉ t) :
    t ∈ lines (· == '\n') (lineAndNext p i b t ++ ['\n']) := by
  obtain ⟨u, hu⟩ : ∃ u, b.chars = u ++ ['\n'] := by
    cases b with
    | lineFeed => exact ⟨[], rfl⟩
    | returnLineFeed => exact ⟨['\r'], rfl⟩
  have hsplit : lineAndNext p i b t ++ ['\n'] =
      p ++ (i.chars ++ ';' :: u) ++ '\n' :: (t ++ ['\n']) := by
    rw [lineAndNext, hu]
    simp only [List.append_assoc, List.cons_append, List.nil_append]
  have hlines : lines (· == '\n') (lineAndNext p i b t ++ ['\n']) =
      lines (· == '\n') (p ++ (i.chars ++ ';' :: u) ++ ['\n']) ++
        lines (· == '\n') (t ++ ['\n']) := by
    rw [hsplit]
    exact lines_append (by decide) _ _
  rw [hlines, lines_lineFeed ht]
  exact List.mem_append_right _ (List.mem_singleton_self t)

namespace StrippedModule

/-- A statement in a comment goes, and the end of its line with it. -/
theorem ofSource_lineAndNext (path slot : String) (hp : Keywordless p) (hline : '\n' ∉ p)
    (hcomment : "//".toList <:+: p) (hend : p.getLast?.any isWord = false) (i : Statement)
    (b : LineBreak) (ht : Keywordless t) :
    ofSource path (String.ofList (lineAndNext p i b t)) slot =
      ⟨path, String.ofList (p ++ t), false⟩ := by
  have hslash : '/' ∈ p := hcomment.subset List.mem_cons_self
  have hcode := ofSource_statement path slot hp hend i (ht.behind_break b)
  rwa [beforeStatement_of_line hline hslash (by decide), afterStatement_line] at hcode

/-- Where an import is taken out of a line comment, the next line is not a line any more: it
    goes on the comment.  It stays a line if and only if `import` is the end of a word. -/
theorem ofSource_commented (path slot : String) (hp : Keywordless p) (hline : '\n' ∉ p)
    (hcomment : "//".toList <:+: p) (n : Name) {s : Specifier} (hs : Keywordless s.text)
    (b : LineBreak) (ht : Keywordless t) (htline : '\n' ∉ t) :
    (p.getLast?.any isWord = false →
      ofSource path (String.ofList (lineAndNext p (.spaced n s) b t)) slot =
        ⟨path, String.ofList (p ++ t), false⟩) ∧
    (t ∈ lines (· == '\n') ((ofSource path
        (String.ofList (lineAndNext p (.spaced n s) b t)) slot).code.toList ++ ['\n']) ↔
      p.getLast?.any isWord = true) := by
  have hstripped (hend : p.getLast?.any isWord = false) :=
    ofSource_lineAndNext path slot hp hline hcomment hend (.spaced n s) b ht
  refine ⟨hstripped, ?_⟩
  cases hend : p.getLast?.any isWord with
  | false =>
    refine iff_of_false ?_ (by simp)
    have hjoined : '\n' ∉ p ++ t := by
      rw [List.mem_append, not_or]
      exact ⟨hline, htline⟩
    rw [hstripped hend, String.toList_ofList (l := p ++ t), lines_lineFeed hjoined,
      List.mem_singleton]
    intro heq
    have hnil : p = [] := List.append_left_eq_self.mp heq.symm
    rw [hnil] at hend hcomment
    exact absurd hcomment (by decide)
  | true =>
    refine iff_of_true ?_ rfl
    have hkept := ofSource_glued path slot hp hend n hs (ht.behind_break b)
    rw [lineAndNext, hkept, String.toList_ofList (l := p ++ _)]
    exact mem_lines_lineAndNext p (.spaced n s) b htline

def shortSpecifier : Specifier := .quoted "./s".toList (List.all_eq_true.mp (by decide))

/-- A declaration behind a comment at the end of a line. -/
theorem ofSource_commented_lineEnd :
    ofSource "App.js" "a(); // import X from './s';\r\nconst App = a;" "slot" =
      ⟨"App.js", "a(); // const App = a;", false⟩ ∧
    "const App = a;".toList ∉ lines (· == '\n') ((ofSource "App.js"
      "a(); // import X from './s';\r\nconst App = a;" "slot").code.toList ++ ['\n']) := by
  have h := ofSource_commented "App.js" "slot" (p := "a(); // ".toList)
    (t := "const App = a;".toList) (s := shortSpecifier) (by decide) (by decide) (by decide)
    ⟨"X".toList, by decide⟩ (by decide) .returnLineFeed (by decide) (by decide)
  exact ⟨h.1 (by decide), mt h.2.mp (by decide)⟩

/-- A function that is commented out, because a statement stood in the comment before it. -/
theorem exists_line_commented_out :
    ofSource "App.js" "// import X from './s';\nfunction App() \x7b return null; \x7d" "slot" =
      ⟨"App.js", "// function App() \x7b return null; \x7d", false⟩ ∧
    "function App() \x7b return null; \x7d".toList ∉ lines (· == '\n') ((ofSource "App.js"
      "// import X from './s';\nfunction App() \x7b return null; \x7d" "slot").code.toList ++
        ['\n']) := by
  have hcode : ofSource "App.js" "// import X from './s';\nfunction App() \x7b return null; \x7d"
      "slot" = ⟨"App.js", "// function App() \x7b return null; \x7d", false⟩ :=
    ofSource_statement "App.js" "slot" (u := "// ".toList)
      (v := ";\nfunction App() \x7b return null; \x7d".toList) (by decide) (by decide)
      (.spaced ⟨"X".toList, by decide⟩ shortSpecifier) (by decide)
  refine ⟨hcode, ?_⟩
  rw [hcode]
  decide

end StrippedModule

end LivePreview.Script
