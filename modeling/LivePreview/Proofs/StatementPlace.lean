/-
  LivePreview.Proofs.StatementPlace

  One import statement anywhere in a text.

  The statement goes, and with it the indentation before it if that begins its line
  (`beforeStatement`), and behind it one semicolon, spaces and tabs, and the end of its line
  (`afterStatement`).  What is left of the text meets where the statement stood
  (`StrippedModule.ofSource_statement`), whatever it was a part of.
-/

import LivePreview.Proofs.SlotWrites
import Mathlib.Data.List.DropRight

namespace LivePreview.Pattern

open Text (Lacks Divides)

variable {p q : Pattern} {f : Match → List Char} {last : Option Char}

/-! ## Texts without the leading word -/

theorem LedBy.fails {w s : List Char} (hp : p.LedBy w) (hs : Lacks w s) : p.Fails last s := by
  rw [fails_iff]
  rintro t r gs rfl htakes
  obtain ⟨b, -, hbegins⟩ := hp _ _ _ _ htakes
  refine hs ?_
  exact (List.suffix_append b w).isInfix.trans
    (hbegins.isInfix.trans (List.prefix_append t r).isInfix)

/-- The rest of a text stays if it does not hold the leading word. -/
theorem LedBy.reads_rest {w s : List Char} (hp : p.LedBy w) (hs : Lacks w s) :
    p.Reads f last s [] s [] := by
  apply reads_of_fails
  rintro t₁ c t₂ rfl
  rw [List.append_nil]
  exact hp.fails (hs.mono (List.suffix_append t₁ _).isInfix)

/-- A text with one match. -/
theorem reads_single {u t v : List Char} {gs : List (List Char)}
    (hu : p.Reads f none u (t ++ v) u []) (ht : p.Prefers (lastAfter none u) t v gs)
    (hne : t ≠ []) (hv : p.Reads f (lastAfter (lastAfter none u) t) v [] v []) :
    p.Reads f none (u ++ (t ++ v)) [] (u ++ (f ⟨t, gs⟩ ++ v)) [gs] := by
  have hhit : p.Reads f (lastAfter none u) t (v ++ []) (f ⟨t, gs⟩) [gs] := by
    rw [List.append_nil]
    exact reads_hit ht hne
  rw [← List.append_nil (t ++ v)] at hu
  exact hu.append (hhit.append hv)

theorem LedBy.replace_eq {w s : List Char} (hp : p.LedBy w) (hs : Lacks w s) :
    p.replace f s = s :=
  Reads.replace_eq (hp.reads_rest hs)

/-- The text before the first place of the leading word stays. -/
theorem Begins.reads_before {w t r : List Char} (hp : p.Begins w) (ht : Lacks w t)
    (h : Divides w t r) : p.Reads f last t r t [] := by
  apply reads_of_fails
  intro t₁ c t₂ hsplit
  rw [fails_iff]
  intro t' r' gs heq htakes
  obtain ⟨x, rfl⟩ := hp _ _ _ _ htakes
  have hwhole : t ++ r = t₁ ++ (w ++ (x ++ r')) := by
    rw [hsplit, List.append_assoc, List.cons_append, heq, List.append_assoc]
  have hfirst : t <+: t₁ := ht.isPrefix_of_isPrefix h hwhole (List.prefix_append _ _)
  have hlength := hfirst.length_le
  rw [hsplit, List.length_append, List.length_cons] at hlength
  omega

/-! ## Patterns that take what they can -/

/-- Of every text the pattern leaves `rest`. -/
def Leaves (p : Pattern) (rest : List Char → List Char) : Prop :=
  ∀ last s, ∃ t, s = t ++ rest s ∧ p.Prefers last t (rest s) []

theorem leaves_many (cls : Char → Bool) : (many cls).Leaves (List.dropWhile cls) := by
  intro last s
  refine ⟨s.takeWhile cls, List.takeWhile_append_dropWhile.symm, prefers_many ?_ ?_⟩
  · exact fun c hc => List.mem_takeWhile_imp hc
  · intro c hc
    obtain ⟨u, hu⟩ := List.head?_eq_some_iff.mp hc
    have hne : s.dropWhile cls ≠ [] := by simp [hu]
    simpa [hu] using List.head_dropWhile_not cls hne

/-- The text without the character, if it begins with it. -/
def dropChar (c : Char) : List Char → List Char
  | [] => []
  | d :: s => if d == c then s else d :: s

theorem leaves_optional_char (c : Char) : (optional (char c)).Leaves (dropChar c) := by
  intro last s
  cases s with
  | nil =>
    refine ⟨[], rfl, prefers_optional_nothing ?_⟩
    rfl
  | cons d s =>
    by_cases hd : d = c
    · subst hd
      rw [dropChar, if_pos (beq_self_eq_true d)]
      exact ⟨[d], rfl, (prefers_char d last s).optional⟩
    · rw [dropChar, if_neg (by simpa using hd)]
      exact ⟨[], rfl, prefers_optional_nothing (fails_char hd last s)⟩

theorem dropChar_suffix (c : Char) (s : List Char) : dropChar c s <:+ s := by
  cases s with
  | nil => exact List.suffix_refl _
  | cons d s =>
    rw [dropChar]
    split
    · exact List.suffix_cons d s
    · exact List.suffix_refl _

/-- A match that goes on with what another pattern takes. -/
theorem Leaves.seq {rest : List Char → List Char} {t v r : List Char} (hq : q.Leaves rest)
    (hp : ∃ t', v = t' ++ r ∧ p.Prefers last (t ++ t') r []) :
    ∃ t', v = t' ++ rest r ∧ (p ++ q).Prefers last (t ++ t') (rest r) [] := by
  obtain ⟨t₁, rfl, hp⟩ := hp
  obtain ⟨t₂, hr, hq⟩ := hq (lastAfter last (t ++ t₁)) r
  rw [hr] at hp
  refine ⟨t₁ ++ t₂, by rw [List.append_assoc, ← hr], ?_⟩
  rw [← List.append_assoc]
  exact hp.seq hq

end LivePreview.Pattern

namespace LivePreview.Script

open Pattern Text

variable {u v : List Char}

/-! ## What stays before and behind a statement -/

/-- A space or a tab. -/
def isIndent (c : Char) : Bool := c == ' ' || c == '\t'

/-- The text before a statement without the indentation of its line, if there is nothing else
    before it on the line. -/
def beforeStatement (u : List Char) : List Char :=
  if (u.rdropWhile isIndent).getLast?.all (· == '\n') then u.rdropWhile isIndent else u

/-- The text behind a statement without the end of its line. -/
def afterStatement (v : List Char) : List Char :=
  dropChar '\n' (dropChar '\r'
    ((dropChar ';' (v.dropWhile isIndent)).dropWhile isIndent))

theorem afterStatement_suffix (v : List Char) : afterStatement v <:+ v :=
  (dropChar_suffix '\n' _).trans <| (dropChar_suffix '\r' _).trans <|
    (List.dropWhile_suffix _).trans <| (dropChar_suffix ';' _).trans (List.dropWhile_suffix _)

theorem beforeStatement_of_indent {b : List Char} (hu : AtLine (lastAfter none u))
    (hb : ∀ c ∈ b, isIndent c = true) : beforeStatement (u ++ b) = u := by
  have hlast : ∀ c, u.getLast? = some c → c = '\n' := by
    intro c hc
    exact hu c (by rw [lastAfter, hc, Option.some_or])
  have hdrop : (u ++ b).rdropWhile isIndent = u := by
    have hbefore : u.rdropWhile isIndent = u := by
      rw [List.rdropWhile_eq_self_iff]
      intro hne
      rw [hlast _ (List.getLast?_eq_some_getLast hne)]
      decide
    rw [List.rdropWhile, List.reverse_append,
      List.dropWhile_append_of_pos fun c hc => hb c (List.mem_reverse.mp hc)]
    exact hbefore
  rw [beforeStatement, hdrop, if_pos]
  rw [Option.all_eq_true]
  intro c hc
  simpa using hlast c hc

/-- What goes before a statement is the indentation of its line. -/
theorem exists_indent (u : List Char) : ∃ b : Spaces, u = beforeStatement u ++ b.chars ∧
    (b.chars = [] ∨ AtLine (lastAfter none (beforeStatement u))) := by
  unfold beforeStatement
  split
  · next h =>
    have hsplit := (List.rdropWhile_append_rtakeWhile (p := isIndent) (l := u)).symm
    have hindent : ∀ c ∈ u.rtakeWhile isIndent, isIndent c = true :=
      fun c hc => List.mem_rtakeWhile_imp hc
    refine ⟨⟨u.rtakeWhile isIndent, hindent⟩, hsplit, .inr ?_⟩
    intro c hc
    rw [lastAfter, Option.or_none] at hc
    simpa [hc] using h
  · exact ⟨.empty, (List.append_nil u).symm, .inl rfl⟩

/-! ## The statement goes -/

/-- A specifier in single quotes. -/
def Specifier.quoted (text : List Char) (h : ∀ c ∈ text, Shape.isSpecifierPart c = true) :
    Specifier :=
  ⟨'\'', text, '\'', by decide, h, by decide⟩

/-- An import statement: the white space behind `import`, the clause and the specifier. -/
structure Statement where
  gap : Gap
  clause : Clause
  specifier : Specifier

def Statement.chars (i : Statement) : List Char :=
  "import".toList ++ i.gap.chars ++ i.clause.chars ++ i.specifier.chars

theorem Statement.chars_append (i : Statement) (v : List Char) : i.chars ++ v = "import".toList ++
    (i.gap.chars ++ (i.clause.chars ++ (i.specifier.chars ++ v))) := by
  unfold Statement.chars
  simp only [List.append_assoc]

variable {last : Option Char}

/-- A statement is matched from its indentation up to the end of its line. -/
theorem exists_prefers_statement {b : Spaces} (hline : b.chars = [] ∨ AtLine last)
    (hbefore : (lastAfter last b.chars).any isWord = false) (i : Statement) (v : List Char) :
    ∃ t, t ≠ [] ∧ b.chars ++ (i.chars ++ v) = t ++ afterStatement v ∧
      Shape.importStatement.Prefers last t (afterStatement v) [] := by
  have hindent : ∀ r, Shape.lineIndent.Takes last b.chars r [] := by
    intro r
    rcases hline with hnone | hline
    · exact .inr ⟨hnone, rfl⟩
    · exact .inl ⟨[], b.chars, [], [], rfl, rfl, ⟨rfl, rfl, hline.atLineStart _⟩, b.indent, rfl⟩
  have hboundary : isWordBoundary (lastAfter last b.chars) (some 'i') = true := by
    rw [isWordBoundary, hbefore]
    decide
  have htakes := takes_importHead hindent hboundary i.gap i.clause i.specifier v
  -- Behind the specifier each part takes what it can.
  have hhead : ∃ t', v = t' ++ v ∧ importHead.Prefers last (b.chars ++ "import".toList ++
      i.gap.chars ++ i.clause.chars ++ i.specifier.chars ++ t') v [] := by
    refine ⟨[], rfl, ?_⟩
    rw [List.append_nil]
    exact prefers_importHead_of_takes htakes
  have hsemicolon := (leaves_optional_char ';').seq ((leaves_many isIndent).seq hhead)
  have hreturn := (leaves_optional_char '\r').seq ((leaves_many isIndent).seq hsemicolon)
  obtain ⟨t', hv, hmatch⟩ := (leaves_optional_char '\n').seq hreturn
  have hmatch : Shape.importStatement.Prefers last _ (afterStatement v) [] := hmatch
  refine ⟨_, ?_, ?_, hmatch⟩
  · simp [Specifier.chars]
  · have hafter : v = t' ++ afterStatement v := hv
    conv_lhs => rw [i.chars_append, hafter]
    simp only [List.append_assoc]

theorem divides_import (u r : List Char) : Divides "import".toList u ("import".toList ++ r) :=
  .inr rfl

/-- Before the first `import` nothing is matched but the indentation of its line. -/
theorem reads_beforeStatement {f : Match → List Char} (hu : Lacks "import".toList u) {b : Spaces}
    (hb : u = beforeStatement u ++ b.chars) (r : List Char) :
    Shape.importStatement.Reads f none (beforeStatement u)
      (b.chars ++ ("import".toList ++ r)) (beforeStatement u) [] := by
  apply reads_of_fails
  intro t₁ c t₂ hsplit
  rw [fails_iff]
  intro t r' gs heq htakes
  obtain ⟨b', hb', ⟨x, rfl⟩, hline, -⟩ := indentedBy_importStatement _ _ _ _ htakes
  -- The word that is matched is not before the first one.
  have hwhole : u ++ ("import".toList ++ r) = t₁ ++ b' ++ ("import".toList ++ (x ++ r')) := by
    calc u ++ ("import".toList ++ r)
        = t₁ ++ (c :: (t₂ ++ (b.chars ++ ("import".toList ++ r)))) := by
          conv_lhs => rw [hb, hsplit]
          simp only [List.append_assoc, List.cons_append]
      _ = t₁ ++ b' ++ ("import".toList ++ (x ++ r')) := by
          rw [heq]
          simp only [List.append_assoc]
  have hfirst : u <+: t₁ ++ b' :=
    hu.isPrefix_of_isPrefix (divides_import u r) hwhole (List.prefix_append _ _)
  have hrest : c :: t₂ <+: b' := by
    rw [hb, hsplit, List.append_assoc] at hfirst
    exact (List.prefix_append _ _).trans ((List.prefix_append_right_inj t₁).mp hfirst)
  have hindent : ∀ d ∈ c :: t₂, isIndent d = true := fun d hd => hb' d (hrest.subset hd)
  have hstart : AtLine (lastAfter none t₁) := hline.resolve_left (hrest.ne_nil (by simp))
  -- So all from there on is indentation, which does not stay.
  have hbefore : beforeStatement u = t₁ := by
    rw [hb, hsplit, List.append_assoc]
    apply beforeStatement_of_indent hstart
    intro d hd
    rcases List.mem_append.mp hd with hd | hd
    · exact hindent d hd
    · exact b.indent d hd
  rw [hbefore] at hsplit
  simp at hsplit

/-- One statement is taken out of a text. -/
theorem erase_statement (hu : Lacks "import".toList u) (hend : u.getLast?.any isWord = false)
    (i : Statement) (hv : Lacks "import".toList v) :
    Shape.importStatement.erase (u ++ (i.chars ++ v)) =
      beforeStatement u ++ afterStatement v := by
  obtain ⟨b, hb, hline⟩ := exists_indent u
  have hlast : lastAfter (lastAfter none (beforeStatement u)) b.chars = u.getLast? := by
    rw [← lastAfter_append, ← hb, lastAfter, Option.or_none]
  obtain ⟨t, hne, ht, hmatch⟩ := exists_prefers_statement hline (hlast ▸ hend) i v
  have htext : u ++ (i.chars ++ v) = beforeStatement u ++ (t ++ afterStatement v) := by
    conv_lhs => rw [hb]
    rw [List.append_assoc, ht]
  have hbefore : Shape.importStatement.Reads (fun _ => []) none (beforeStatement u)
      (t ++ afterStatement v) (beforeStatement u) [] := by
    rw [← ht, i.chars_append]
    exact reads_beforeStatement hu hb _
  have hread := reads_single hbefore hmatch hne
    (ledBy_importStatement.reads_rest (hv.mono (afterStatement_suffix v).isInfix))
  rw [htext]
  exact hread.replace_eq

/-- Where `import` stands in a text with a statement: in the words before the specifier, or
    behind its opening quote. -/
theorem exists_place_of_import {w a x : List Char} {s : Specifier} (hu : Lacks "import".toList u)
    (h : u ++ ("import".toList ++ w ++ (s.chars ++ v)) = a ++ ("import".toList ++ x)) :
    (∃ y z, a = u ++ y ∧ "import".toList ++ w = y ++ z ∧
      z ++ (s.chars ++ v) = "import".toList ++ x) ∨
      ∃ y, s.text ++ s.closing :: v = y ++ ("import".toList ++ x) := by
  obtain ⟨y, rfl⟩ : u <+: a := by
    rw [List.append_assoc "import".toList] at h
    exact hu.isPrefix_of_isPrefix (divides_import u _) h (List.prefix_append _ _)
  rw [List.append_assoc u y, List.append_cancel_left_eq] at h
  rcases List.append_eq_append_iff.mp h with ⟨z, rfl, hz⟩ | ⟨z, hz, hrest⟩
  · right
    have hchars : s.chars ++ v = s.opening :: (s.text ++ s.closing :: v) := by
      simp [Specifier.chars]
    rw [hchars] at hz
    cases z with
    | nil =>
      -- The quote would be the first letter of the word.
      have hletter : s.opening = 'i' := (List.cons.inj hz).1
      have hquote := s.opening_isQuote
      rw [hletter] at hquote
      exact absurd hquote (by decide)
    | cons c z => exact ⟨z, (List.cons.inj hz).2⟩
  · exact .inl ⟨y, z, rfl, hz, hrest.symm⟩

/-! ## Nothing else is rewritten -/

/-- Parts on both sides of a character that is no word character. -/
theorem Keywordless.append_cons {c : Char} (hu : Keywordless u) (hc : isWord c = false)
    (hv : Keywordless v) : Keywordless (u ++ c :: v) := by
  have hword : ∀ w : List Char, w.all isWord = true → c ∉ w := by
    intro w hw hmem
    rw [List.all_eq_true.mp hw c hmem] at hc
    cases hc
  exact ⟨Lacks.append_cons hu.1 (hword _ (by decide)) hv.1,
    Lacks.append_cons hu.2 (hword _ (by decide)) hv.2⟩

/-- A word that neither part holds does not stand across their joint, if no word character
    ends the first part. -/
theorem lacks_joint {w : List Char} (hw : ∀ c ∈ w, isWord c = true) (hu : Lacks w u)
    (hend : u.getLast?.any isWord = false) (hv : Lacks w v) : Lacks w (u ++ v) := by
  cases hlast : u.getLast? with
  | none =>
    rw [List.getLast?_eq_none_iff] at hlast
    rwa [hlast, List.nil_append]
  | some c =>
    apply hu.append hv
    left
    rw [hlast, Option.any_some, decide_eq_true_eq]
    intro hc
    rw [hlast, Option.any_some, hw c hc] at hend
    cases hend

theorem any_getLast?_beforeStatement (hend : u.getLast?.any isWord = false) :
    (beforeStatement u).getLast?.any isWord = false := by
  obtain ⟨b, hb, hnone | hline⟩ := exists_indent u
  · rw [hnone, List.append_nil] at hb
    rwa [← hb]
  · rw [Option.any_eq_false]
    intro c hc
    rw [hline c (by rw [lastAfter, hc, Option.some_or])]
    decide

theorem lacks_statement_joint {w : List Char} (hw : ∀ c ∈ w, isWord c = true) (hu : Lacks w u)
    (hend : u.getLast?.any isWord = false) (hv : Lacks w v) :
    Lacks w (beforeStatement u ++ afterStatement v) := by
  obtain ⟨b, hb, -⟩ := exists_indent u
  have hbefore : beforeStatement u <:+: u := by
    conv_rhs => rw [hb]
    exact (List.prefix_append _ _).isInfix
  exact lacks_joint hw (hu.mono hbefore) (any_getLast?_beforeStatement hend)
    (hv.mono (afterStatement_suffix v).isInfix)

namespace StrippedModule

/-- The shapes that are looked for after the imports. -/
def exportShapes : List Pattern :=
  [Shape.exportList, Shape.defaultFunction, Shape.defaultExpression, Shape.exportedDeclaration]

/-- A text without matches of the shapes of exports is stripped of its import statements
    only. -/
theorem ofSource_of_reads {source : String} {s : List Char} (path slot : String)
    (herase : Shape.importStatement.erase source.toList = s)
    (hread : ∀ p ∈ exportShapes, ∀ f, p.Reads f none s [] s []) :
    ofSource path source slot = ⟨path, String.ofList s, false⟩ := by
  simp only [exportShapes, List.forall_mem_cons, List.not_mem_nil, IsEmpty.forall_iff, implies_true,
    and_true] at hread
  obtain ⟨hlist, hfunction, hexpression, hdeclaration⟩ := hread
  have hlists : withoutLists source.toList = s := by
    rw [withoutLists, herase]
    exact (hlist _).replace_eq
  have hfunctions : defaultFunctions s = [] := by
    rw [defaultFunctions, (hfunction Match.text).allMatches_eq_nil, List.map_nil]
  have hplain : withPlainFunctions s = s := (hfunction _).replace_eq
  have hassigned (slot : List Char) : withSlotAssignments slot s = s := (hexpression _).replace_eq
  have hdeclared : withPlainDeclarations s = s := (hdeclaration _).replace_eq
  have hnone : Shape.defaultExpression.occursIn s = false := by
    rw [occursIn, first?, (hexpression Match.text).allMatches_eq_nil]
    rfl
  rw [ofSource]
  simp only [hlists, hfunctions, hplain, hassigned, hdeclared, hnone, List.flatMap_nil,
    List.append_nil, List.isEmpty_nil, Bool.not_true, Bool.or_self]

/-- A text without exports is stripped of its import statements only. -/
theorem ofSource_of_lacks_export {source : String} (path slot : String)
    (h : Lacks "export".toList (Shape.importStatement.erase source.toList)) :
    ofSource path source slot =
      ⟨path, String.ofList (Shape.importStatement.erase source.toList), false⟩ := by
  refine ofSource_of_reads path slot rfl ?_
  intro p hp f
  have hled : p.LedBy "export".toList := by
    simp only [exportShapes, List.mem_cons, List.not_mem_nil, or_false] at hp
    rcases hp with rfl | rfl | rfl | rfl
    · exact ledBy_exportList
    · exact begins_defaultFunction.ledBy
    · exact begins_defaultExpression.ledBy
    · exact begins_exportedDeclaration.ledBy
  exact hled.reads_rest h

/-- A source without module syntax is its own code. -/
theorem ofSource_of_keywordless {source : String} (path slot : String)
    (h : Keywordless source.toList) : ofSource path source slot = ⟨path, source, false⟩ := by
  have herase : Shape.importStatement.erase source.toList = source.toList :=
    ledBy_importStatement.replace_eq h.1
  rw [ofSource_of_lacks_export path slot (herase.symm ▸ h.2), herase, String.ofList_toList]

/-- A source whose module syntax is one import statement, wherever that stands. -/
theorem ofSource_statement (path slot : String) (hu : Keywordless u)
    (hend : u.getLast?.any isWord = false) (i : Statement) (hv : Keywordless v) :
    ofSource path (String.ofList (u ++ (i.chars ++ v))) slot =
      ⟨path, String.ofList (beforeStatement u ++ afterStatement v), false⟩ := by
  have herase : Shape.importStatement.erase (String.ofList (u ++ (i.chars ++ v))).toList =
      beforeStatement u ++ afterStatement v := by
    rw [String.toList_ofList (l := u ++ (i.chars ++ v))]
    exact erase_statement hu.1 hend i hv.1
  have hexport : Lacks "export".toList (beforeStatement u ++ afterStatement v) :=
    lacks_statement_joint (List.all_eq_true.mp (by decide)) hu.2 hend hv.2
  rw [ofSource_of_lacks_export path slot (herase.symm ▸ hexport), herase]

end StrippedModule

end LivePreview.Script
