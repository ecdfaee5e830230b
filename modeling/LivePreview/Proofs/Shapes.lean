/-
  LivePreview.Proofs.Shapes

  What the parts of the textual shapes of module syntax match, and the word that each
  shape begins with.
-/

import LivePreview.Proofs.ModuleText
import LivePreview.Proofs.Reading

namespace LivePreview.Script

open Pattern

/-! ## Classes of characters -/

theorem toNat_of_isAlphanum {c : Char} (h : c.isAlphanum = true) :
    (48 ≤ c.toNat ∧ c.toNat ≤ 57) ∨ (65 ≤ c.toNat ∧ c.toNat ≤ 90) ∨
      (97 ≤ c.toNat ∧ c.toNat ≤ 122) := by
  change ((decide ('A'.val ≤ c.val ∧ c.val ≤ 'Z'.val) ||
    decide ('a'.val ≤ c.val) && decide (c.val ≤ 'z'.val)) ||
      decide ('0'.val ≤ c.val) && decide (c.val ≤ '9'.val)) = true at h
  simp only [Bool.or_eq_true, Bool.and_eq_true, decide_eq_true_eq, UInt32.le_iff_toNat_le] at h
  change (65 ≤ c.toNat ∧ c.toNat ≤ 90 ∨ 97 ≤ c.toNat ∧ c.toNat ≤ 122) ∨
    (48 ≤ c.toNat ∧ c.toNat ≤ 57) at h
  omega

theorem isBlank_of_isIdentifierPart {c : Char} (h : isIdentifierPart c = true) :
    Text.isBlank c = false := by
  simp only [isIdentifierPart, Bool.or_eq_true, beq_iff_eq] at h
  rcases h with (h | rfl) | rfl
  · have hrange := toNat_of_isAlphanum h
    simp only [Text.isBlank, Bool.or_eq_false_iff, Bool.and_eq_false_iff, decide_eq_false_iff_not,
      beq_eq_false_iff_ne]
    omega
  · decide
  · decide

theorem isWord_of_isIdentifierPart {c : Char} (h : isIdentifierPart c = true) :
    (c == '$' || Text.isWord c) = true := by
  simp only [isIdentifierPart, Bool.or_eq_true] at h
  rcases h with (h | h) | h <;> simp [Text.isWord, h]

/-- White space prolongs no name. -/
theorem isWord_of_isBlank {c : Char} (h : Text.isBlank c = true) :
    (c == '$' || Text.isWord c) = false := by
  -- The few characters are looked up in the table of word characters one by one.
  have htable : ∀ n ∈ [9, 10, 11, 12, 13, 32, 0x85, 0xa0, 0x1680, 0x2000, 0x2001, 0x2002, 0x2003,
      0x2004, 0x2005, 0x2006, 0x2007, 0x2008, 0x2009, 0x200a, 0x2028, 0x2029, 0x202f, 0x205f,
      0x3000], (Char.ofNat n == '$' || Text.isWord (Char.ofNat n)) = false := by
    decide +kernel
  have hn := htable c.toNat ?_
  · rwa [Char.ofNat_toNat] at hn
  · simp only [Text.isBlank, Bool.or_eq_true, Bool.and_eq_true, decide_eq_true_eq,
      beq_iff_eq] at h
    simp only [List.mem_cons, List.not_mem_nil, or_false]
    omega

theorem isWord_of_isQuote {c : Char} (h : Shape.isQuote c = true) :
    (c == '$' || Text.isWord c) = false := by
  simp only [Shape.isQuote, Bool.or_eq_true, beq_iff_eq] at h
  rcases h with rfl | rfl <;> decide

theorem isQuote_of_isClausePart {c : Char} (h : Shape.isClausePart c = true) :
    Shape.isQuote c = false := by
  by_contra hq
  simp only [Shape.isQuote, Bool.not_eq_false, Bool.or_eq_true, beq_iff_eq] at hq
  rcases hq with rfl | rfl <;> exact absurd h (by decide)

theorem isQuote_of_isBlank {c : Char} (h : Text.isBlank c = true) : Shape.isQuote c = false := by
  by_contra hq
  simp only [Shape.isQuote, Bool.not_eq_false, Bool.or_eq_true, beq_iff_eq] at hq
  rcases hq with rfl | rfl <;> exact absurd h (by decide)

theorem isBlank_of_isQuote {c : Char} (h : Shape.isQuote c = true) : Text.isBlank c = false := by
  simp only [Shape.isQuote, Bool.or_eq_true, beq_iff_eq] at h
  rcases h with rfl | rfl <;> decide

theorem isClausePart_of_isBlank {c : Char} (h : Text.isBlank c = true) :
    Shape.isClausePart c = true := by
  simp [Shape.isClausePart, h]

theorem isClausePart_of_isIdentifierPart {c : Char} (h : isIdentifierPart c = true) :
    Shape.isClausePart c = true := by
  have hw := isWord_of_isIdentifierPart h
  simp only [Bool.or_eq_true] at hw
  rcases hw with hw | hw <;> simp [Shape.isClausePart, hw]

theorem isQuote_of_isSpecifierPart {c : Char} (h : Shape.isSpecifierPart c = true) :
    Shape.isQuote c = false := by
  simp only [Shape.isSpecifierPart, Bool.and_eq_true, Bool.not_eq_true'] at h
  exact h.1

/-- Spaces and tabs are white space. -/
def Spaces.toWhite (s : Spaces) : White where
  chars := s.chars
  blank := by
    intro c hc
    have hspace := s.indent c hc
    simp only [Bool.or_eq_true, beq_iff_eq] at hspace
    rcases hspace with rfl | rfl <;> decide

/-! ## Where a text stops -/

theorem stops_append {cls : Char → Bool} {t : List Char}
    (h : t.head?.any (fun c => !cls c) = true) (r : List Char) : Stops cls (t ++ r) := by
  cases t with
  | nil => simp at h
  | cons c t => simpa using h

theorem stops_isIdentifierPart {s : List Char} (h : endsName s = true) :
    Stops isIdentifierPart s := by
  intro c hc
  by_contra hpart
  rw [Bool.not_eq_false] at hpart
  simp [endsName, hc, isWord_of_isIdentifierPart hpart] at h

@[simp] theorem endsName_append_lineFeed (s r : List Char) :
    endsName (s ++ '\n' :: r) = endsName s := by
  cases s with
  | nil =>
    have hline : Text.isWord '\n' = false := by decide
    simp [endsName, hline]
  | cons c s => rfl

theorem endsName_line (s r : List Char) : endsName (s ++ ['\n'] ++ r) = endsName s := by
  rw [List.append_assoc, List.singleton_append, endsName_append_lineFeed]

theorem nameFollows_of_stops {s : List Char} (h : Stops Text.isBlank s) :
    nameFollows s = false := by
  cases s with
  | nil => rfl
  | cons c s => rw [nameFollows, List.head?_cons, Option.any_some, stops_cons.mp h, Bool.false_and]

theorem nameFollows_of_eq {s r : List Char} {c : Char} (g : Gap) (hs : s = g.chars ++ c :: r)
    (hc : isIdentifierStart c = true) : nameFollows s = true := by
  obtain ⟨b, w, hcons⟩ := List.exists_cons_of_ne_nil g.nonempty
  have hfirst : Text.isBlank b = true := g.blank b (hcons ▸ List.mem_cons_self)
  have hblank : Text.isBlank c = false :=
    isBlank_of_isIdentifierPart (isIdentifierPart_of_start hc)
  have hdrop : s.dropWhile Text.isBlank = c :: r := by
    rw [hs, List.dropWhile_append_of_pos g.blank, List.dropWhile_cons_of_neg (by simp [hblank])]
  have hhead : s.head? = some b := by rw [hs, hcons, List.cons_append, List.head?_cons]
  rw [nameFollows, hdrop, hhead, List.head?_cons, Option.any_some, Option.any_some, hfirst, hc]
  rfl

theorem wordThenName_of_eq {word : String} {s r : List Char} {c : Char} (g : Gap)
    (hs : s = word.toList ++ (g.chars ++ c :: r)) (hc : isIdentifierStart c = true) :
    wordThenName word s = true := by
  rw [hs, wordThenName, List.drop_left, nameFollows_of_eq g rfl hc, Bool.and_true,
    List.isPrefixOf_iff_prefix]
  exact List.prefix_append _ _

/-! ## Names -/

namespace Name

theorem exists_cons (n : Name) : ∃ c cs, n.chars = c :: cs ∧ isIdentifierStart c = true ∧
    ∀ d ∈ cs, isIdentifierPart d = true := by
  obtain ⟨chars, h⟩ := n
  cases chars with
  | nil => cases h
  | cons c cs =>
    simp only [isIdentifier, Bool.and_eq_true, List.all_eq_true] at h
    exact ⟨c, cs, rfl, h.1, h.2⟩

theorem isIdentifierPart_of_mem (n : Name) : ∀ c ∈ n.chars, isIdentifierPart c = true :=
  List.all_eq_true.mp (all_isIdentifierPart_of_isIdentifier n.valid)

theorem ne_nil (n : Name) : n.chars ≠ [] := by
  obtain ⟨c, cs, h, -⟩ := n.exists_cons
  simp [h]

/-- A name does not begin with a character outside of identifiers. -/
theorem stops (n : Name) {cls : Char → Bool}
    (hcls : ∀ c, isIdentifierPart c = true → cls c = false) (r : List Char) :
    Stops cls (n.chars ++ r) := by
  obtain ⟨c, cs, h, hc, -⟩ := n.exists_cons
  rw [h, List.cons_append, stops_cons]
  exact hcls c (isIdentifierPart_of_start hc)

theorem stops_isBlank (n : Name) (r : List Char) : Stops Text.isBlank (n.chars ++ r) :=
  n.stops (fun _ => isBlank_of_isIdentifierPart) r

end Name

/-- A specifier begins with its quote. -/
theorem Specifier.stops (s : Specifier) {cls : Char → Bool}
    (hcls : ∀ c, Shape.isQuote c = true → cls c = false) (r : List Char) :
    Stops cls (s.chars ++ r) := by
  rw [Specifier.chars, List.cons_append, stops_cons]
  exact hcls _ s.opening_isQuote

theorem Specifier.stops_isBlank (s : Specifier) (r : List Char) :
    Stops Text.isBlank (s.chars ++ r) :=
  s.stops (fun _ => isBlank_of_isQuote) r

/-- Declarations begin with a letter, and with another one than `default`. -/
theorem Keyword.exists_cons (k : Keyword) :
    ∃ c s, k.chars = c :: s ∧ isIdentifierStart c = true ∧ c ≠ 'd' := by
  cases k with
  | function => exact ⟨'f', "unction".toList, rfl, by decide, by decide⟩
  | asyncFunction gap =>
    exact ⟨'a', "sync".toList ++ gap.chars ++ "function".toList, rfl, by decide, by decide⟩
  | constWord => exact ⟨'c', "onst".toList, rfl, by decide, by decide⟩
  | letWord => exact ⟨'l', "et".toList, rfl, by decide, by decide⟩
  | varWord => exact ⟨'v', "ar".toList, rfl, by decide, by decide⟩
  | classWord => exact ⟨'c', "lass".toList, rfl, by decide, by decide⟩

theorem Keyword.stops (k : Keyword) (r : List Char) : Stops Text.isBlank (k.chars ++ r) := by
  obtain ⟨c, s, hk, hc, -⟩ := k.exists_cons
  rw [hk, List.cons_append, stops_cons]
  exact isBlank_of_isIdentifierPart (isIdentifierPart_of_start hc)

/-- What is listed begins with a brace or a star. -/
theorem Listed.exists_cons (l : Listed) :
    ∃ c s, l.chars = c :: s ∧ (c = '\x7b' ∨ c = '*') := by
  cases l with
  | names text closed => exact ⟨'\x7b', text ++ ['\x7d'], rfl, .inl rfl⟩
  | all => exact ⟨'*', [], rfl, .inr rfl⟩
  | allAs before after n =>
    exact ⟨'*', before.chars ++ "as".toList ++ after.chars ++ n.chars, rfl, .inr rfl⟩

theorem Item.exists_body_list (gap : White) (listed : Listed) (source : Option Source)
    (before : Spaces) (semicolon : Bool) : ∃ c s,
      (Item.list gap listed source before semicolon).body = gap.chars ++ c :: s ∧
        (c = '\x7b' ∨ c = '*') := by
  obtain ⟨c, s, hlisted, hc⟩ := listed.exists_cons
  refine ⟨c, s ++ Item.listTail source before semicolon, ?_, hc⟩
  show gap.chars ++ listed.chars ++ Item.listTail source before semicolon = _
  rw [hlisted]
  simp only [List.append_assoc, List.cons_append]

/-- The words that begin a declaration end in a letter. -/
theorem Keyword.exists_getLast? (k : Keyword) :
    ∃ c, k.chars.getLast? = some c ∧ Text.isWord c = true := by
  have hfunction : "function".toList.getLast? = some 'n' := by decide
  cases k with
  | function => exact ⟨'n', hfunction, by decide⟩
  | asyncFunction gap =>
    -- The last word decides, whatever the gap before it is.
    refine ⟨'n', ?_, by decide⟩
    show ("async".toList ++ gap.chars ++ "function".toList).getLast? = some 'n'
    rw [List.getLast?_append, hfunction, Option.some_or]
  | constWord => exact ⟨'t', by decide, by decide⟩
  | letWord => exact ⟨'t', by decide, by decide⟩
  | varWord => exact ⟨'r', by decide, by decide⟩
  | classWord => exact ⟨'s', by decide, by decide⟩

/-- A gap ends a name. -/
theorem Gap.stops (g : Gap) (r : List Char) : Stops isIdentifierPart (g.chars ++ r) := by
  obtain ⟨c, w, hg⟩ := List.exists_cons_of_ne_nil g.nonempty
  rw [hg, List.cons_append, stops_cons]
  by_contra hpart
  have hblank := g.blank c (hg ▸ List.mem_cons_self)
  rw [isBlank_of_isIdentifierPart (Bool.not_eq_false _ ▸ hpart)] at hblank
  cases hblank

/-! ## Parts of the shapes -/

section Parts

variable {last : Option Char} {t r : List Char} {gs : List (List Char)}

theorem takes_blanks : Shape.blanks.Takes last t r gs ↔
    (∀ c ∈ t, Text.isBlank c = true) ∧ gs = [] := Iff.rfl

theorem takes_blanks1 : Shape.blanks1.Takes last t r gs ↔
    (t ≠ [] ∧ ∀ c ∈ t, Text.isBlank c = true) ∧ gs = [] := takes_many1

/-- White space that was taken is a gap. -/
theorem exists_gap_of_takes_blanks1 (h : Shape.blanks1.Takes last t r gs) :
    ∃ g : Gap, t = g.chars ∧ gs = [] := by
  obtain ⟨⟨hne, hblank⟩, rfl⟩ := takes_blanks1.mp h
  exact ⟨⟨⟨t, hblank⟩, hne⟩, rfl, rfl⟩

theorem exists_white_of_takes_blanks (h : Shape.blanks.Takes last t r gs) :
    ∃ w : White, t = w.chars ∧ gs = [] :=
  ⟨⟨t, (takes_blanks.mp h).1⟩, rfl, (takes_blanks.mp h).2⟩

theorem takes_identifier : identifier.Takes last t r gs ↔ isIdentifier t = true ∧ gs = [] := by
  simp only [identifier, append_eq, Takes]
  constructor
  · rintro ⟨t₁, t₂, gs₁, gs₂, rfl, rfl, ⟨⟨c, rfl, hc⟩, rfl⟩, ht, rfl⟩
    exact ⟨by simpa [isIdentifier, hc] using ht, rfl⟩
  · rintro ⟨h, rfl⟩
    obtain ⟨c, cs, hchars, hc, hcs⟩ := Name.exists_cons ⟨t, h⟩
    exact ⟨[c], cs, [], [], hchars, rfl, ⟨⟨c, rfl, hc⟩, rfl⟩, hcs, rfl⟩

theorem takes_quotedSpecifier : Shape.quotedSpecifier.Takes last t r gs ↔
    (∃ s : Specifier, t = s.chars) ∧ gs = [] := by
  simp only [Shape.quotedSpecifier, append_eq, Takes]
  constructor
  · rintro ⟨_, _, _, _, rfl, rfl, ⟨_, _, _, _, rfl, rfl, ⟨⟨o, rfl, ho⟩, rfl⟩, hs, rfl⟩,
      ⟨⟨c, rfl, hc⟩, rfl⟩⟩
    exact ⟨⟨⟨o, _, c, ho, hs, hc⟩, rfl⟩, rfl⟩
  · rintro ⟨⟨s, rfl⟩, rfl⟩
    refine ⟨[s.opening] ++ s.text, [s.closing], [], [], rfl, rfl, ?_, ⟨s.closing, rfl, ?_⟩, rfl⟩
    · exact ⟨[s.opening], s.text, [], [], rfl, rfl, ⟨⟨s.opening, rfl, s.opening_isQuote⟩, rfl⟩,
        s.isSpecifierPart_of_mem, rfl⟩
    · exact s.closing_isQuote

theorem prefers_blanks (w : White) (h : Stops Text.isBlank r) :
    Shape.blanks.Prefers last w.chars r [] := prefers_many w.blank h

theorem prefers_blanks1 (g : Gap) (h : Stops Text.isBlank r) :
    Shape.blanks1.Prefers last g.chars r [] := prefers_many1 g.nonempty g.blank h

theorem prefers_indent (s : Spaces) (h : Stops (fun c => c == ' ' || c == '\t') r) :
    Shape.indent.Prefers last s.chars r [] := prefers_many s.indent h

theorem prefers_identifier (n : Name) (h : Stops isIdentifierPart r) :
    identifier.Prefers last n.chars r [] := by
  obtain ⟨c, cs, hchars, hc, hcs⟩ := n.exists_cons
  rw [hchars]
  exact (prefers_one hc).seq (prefers_many hcs h)

theorem prefers_quotedSpecifier (s : Specifier) (last : Option Char) (r : List Char) :
    Shape.quotedSpecifier.Prefers last s.chars r [] := by
  -- The closing quote ends the run of the text.
  have hstop : Stops Shape.isSpecifierPart ([s.closing] ++ r) := by
    rw [List.singleton_append, stops_cons, Shape.isSpecifierPart, s.closing_isQuote]
    rfl
  exact ((prefers_one s.opening_isQuote).seq (prefers_many s.isSpecifierPart_of_mem hstop)).seq
    (prefers_one s.closing_isQuote)

end Parts

/-! ## Shapes read from their last part on -/

section Sequences

variable {p : Pattern} {last : Option Char} {t r : List Char} {gs : List (List Char)}

theorem takes_seq_literal {s : String} : (p ++ literal s).Takes last t r gs ↔
    ∃ t', t = t' ++ s.toList ∧ p.Takes last t' (s.toList ++ r) gs := by
  constructor
  · rintro ⟨t', _, gs', _, rfl, rfl, hp, hs⟩
    obtain ⟨rfl, rfl⟩ := takes_literal.mp hs
    exact ⟨t', rfl, by rwa [List.append_nil]⟩
  · rintro ⟨t', rfl, hp⟩
    exact ⟨t', s.toList, gs, [], rfl, by simp, hp, takes_literal.mpr ⟨rfl, rfl⟩⟩

theorem takes_seq_blanks1 : (p ++ Shape.blanks1).Takes last t r gs ↔
    ∃ t', ∃ g : Gap, t = t' ++ g.chars ∧ p.Takes last t' (g.chars ++ r) gs := by
  constructor
  · rintro ⟨t', _, gs', _, rfl, rfl, hp, hs⟩
    obtain ⟨g, rfl, rfl⟩ := exists_gap_of_takes_blanks1 hs
    exact ⟨t', g, rfl, by rwa [List.append_nil]⟩
  · rintro ⟨t', g, rfl, hp⟩
    exact ⟨t', g.chars, gs, [], rfl, by simp, hp, takes_blanks1.mpr ⟨⟨g.nonempty, g.blank⟩, rfl⟩⟩

theorem takes_seq_blanks : (p ++ Shape.blanks).Takes last t r gs ↔
    ∃ t', ∃ w : White, t = t' ++ w.chars ∧ p.Takes last t' (w.chars ++ r) gs := by
  constructor
  · rintro ⟨t', _, gs', _, rfl, rfl, hp, hs⟩
    obtain ⟨w, rfl, rfl⟩ := exists_white_of_takes_blanks hs
    exact ⟨t', w, rfl, by rwa [List.append_nil]⟩
  · rintro ⟨t', w, rfl, hp⟩
    exact ⟨t', w.chars, gs, [], rfl, by simp, hp, takes_blanks.mpr ⟨w.blank, rfl⟩⟩

theorem takes_group_identifier : (group identifier).Takes last t r gs ↔
    ∃ n : Name, t = n.chars ∧ gs = [n.chars] := by
  constructor
  · rintro ⟨_, rfl, h⟩
    obtain ⟨hname, rfl⟩ := takes_identifier.mp h
    exact ⟨⟨t, hname⟩, rfl, rfl⟩
  · rintro ⟨n, rfl, rfl⟩
    exact ⟨[], rfl, takes_identifier.mpr ⟨n.valid, rfl⟩⟩

theorem takes_seq_identifier : (p ++ group identifier).Takes last t r gs ↔
    ∃ t' gs', ∃ n : Name, t = t' ++ n.chars ∧ gs = gs' ++ [n.chars] ∧
      p.Takes last t' (n.chars ++ r) gs' := by
  constructor
  · rintro ⟨t', _, gs', _, rfl, rfl, hp, hn⟩
    obtain ⟨n, rfl, rfl⟩ := takes_group_identifier.mp hn
    exact ⟨t', gs', n, rfl, rfl, hp⟩
  · rintro ⟨t', gs', n, rfl, rfl, hp⟩
    exact ⟨t', n.chars, gs', [n.chars], rfl, rfl, hp, takes_group_identifier.mpr ⟨n, rfl, rfl⟩⟩

theorem takes_defaultExpression : Shape.defaultExpression.Takes last t r gs ↔
    ∃ g₁ g₂ : Gap, t = "export".toList ++ g₁.chars ++ "default".toList ++ g₂.chars ∧ gs = [] := by
  simp only [Shape.defaultExpression, takes_seq_blanks1, takes_seq_literal, takes_literal]
  constructor
  · rintro ⟨_, g₂, rfl, _, rfl, _, g₁, rfl, rfl, rfl⟩
    exact ⟨g₁, g₂, rfl, rfl⟩
  · rintro ⟨g₁, g₂, rfl, rfl⟩
    exact ⟨_, g₂, rfl, _, rfl, _, g₁, rfl, rfl, rfl⟩

theorem takes_defaultFunction : Shape.defaultFunction.Takes last t r gs ↔
    ∃ g₁ g₂ g₃ : Gap, ∃ n : Name, t = "export".toList ++ g₁.chars ++ "default".toList ++
      g₂.chars ++ "function".toList ++ g₃.chars ++ n.chars ∧ gs = [n.chars] := by
  simp only [Shape.defaultFunction, takes_seq_identifier, takes_seq_blanks1, takes_seq_literal,
    takes_literal]
  constructor
  · rintro ⟨_, _, n, rfl, rfl, _, g₃, rfl, _, rfl, _, g₂, rfl, _, rfl, _, g₁, rfl, rfl, rfl⟩
    exact ⟨g₁, g₂, g₃, n, rfl, rfl⟩
  · rintro ⟨g₁, g₂, g₃, n, rfl, rfl⟩
    exact ⟨_, _, n, rfl, rfl, _, g₃, rfl, _, rfl, _, g₂, rfl, _, rfl, _, g₁, rfl, rfl, rfl⟩

end Sequences

/-! ## The words that the shapes begin with -/

theorem begins_defaultExport : Shape.defaultExport.Begins "export".toList :=
  (((((begins_literal "export").seq _).seq _).seq _).seq _).seq _

theorem begins_namedExport : Shape.namedExport.Begins "export".toList :=
  ((((begins_literal "export").seq _).seq _).seq _).seq _

theorem begins_defaultImport : Shape.defaultImport.Begins "import".toList :=
  ((((((((begins_literal "import").seq _).seq _).seq _).seq _).seq _).seq _).seq _).seq _

theorem begins_defaultFunction : Shape.defaultFunction.Begins "export".toList :=
  ((((((begins_literal "export").seq _).seq _).seq _).seq _).seq _).seq _

theorem begins_defaultExpression : Shape.defaultExpression.Begins "export".toList :=
  (((begins_literal "export").seq _).seq _).seq _

theorem begins_exportedDeclaration : Shape.exportedDeclaration.Begins "export".toList :=
  (((begins_literal "export").seq _).seq _).seq _

theorem indent_of_takes_lineIndent {last : Option Char} {t r : List Char}
    {gs : List (List Char)} (h : Shape.lineIndent.Takes last t r gs) :
    (∀ c ∈ t, (c == ' ' || c == '\t') = true) ∧ gs = [] := by
  rcases h with ⟨_, _, _, _, rfl, rfl, ⟨rfl, rfl, -⟩, hindent, rfl⟩ | ⟨rfl, rfl⟩
  · exact ⟨hindent, rfl⟩
  · exact ⟨by simp, rfl⟩

/-- Every match begins with the word, where no word character stands before it, and takes the
    indentation before the word only if that begins its line. -/
def IndentedBy (p : Pattern) (w : List Char) : Prop :=
  ∀ last t r gs, p.Takes last t r gs → ∃ b, (∀ c ∈ b, (c == ' ' || c == '\t') = true) ∧
    b ++ w <+: t ∧ (b = [] ∨ AtLine last) ∧ (lastAfter last b).any Text.isWord = false

theorem IndentedBy.ledBy {p : Pattern} {w : List Char} (h : IndentedBy p w) : p.LedBy w := by
  intro last t r gs htakes
  obtain ⟨b, hb, hw, -, -⟩ := h last t r gs htakes
  exact ⟨b, hb, hw⟩

theorem IndentedBy.seq {p : Pattern} {w : List Char} (h : IndentedBy p w) (q : Pattern) :
    IndentedBy (p ++ q) w := by
  rintro last _ r gs ⟨t₁, t₂, gs₁, gs₂, rfl, -, hp, -⟩
  obtain ⟨b, hb, hw, hline⟩ := h _ _ _ _ hp
  exact ⟨b, hb, hw.trans (List.prefix_append t₁ t₂), hline⟩

theorem indentedBy_lineIndent_literal (word : String)
    (hword : word.toList.head?.any Text.isWord = true) :
    IndentedBy (Shape.lineIndent ++ wordBoundary ++ literal word) word.toList := by
  rintro last _ r gs ⟨_, _, _, _, rfl, rfl, ⟨b, _, _, _, rfl, rfl, hindent, ⟨rfl, rfl, hboundary⟩⟩,
    hliteral⟩
  obtain ⟨rfl, -⟩ := takes_literal.mp hliteral
  have hline : b = [] ∨ AtLine last := by
    rcases hindent with ⟨_, _, _, _, rfl, rfl, ⟨rfl, rfl, hstart⟩, -⟩ | ⟨rfl, rfl⟩
    · right
      rintro c rfl
      exact beq_iff_eq.mp hstart
    · exact .inl rfl
  -- The word begins with a word character, so there is none on the other side.
  have hbefore : (lastAfter last b).any Text.isWord = false := by
    cases hchars : word.toList with
    | nil => simp [hchars] at hword
    | cons d ds =>
      have hd : Text.isWord d = true := by simpa [hchars] using hword
      simpa [Text.isWordBoundary, hchars, hd] using hboundary
  exact ⟨b, (indent_of_takes_lineIndent hindent).1, by simp, hline, hbefore⟩

theorem indentedBy_importStatement : IndentedBy Shape.importStatement "import".toList :=
  ((((((((indentedBy_lineIndent_literal "import" (by decide)).seq _).seq _).seq _).seq
    _).seq _).seq _).seq _).seq _

theorem indentedBy_exportList : IndentedBy Shape.exportList "export".toList :=
  (((((indentedBy_lineIndent_literal "export" (by decide)).seq _).seq _).seq _).seq _).seq _

theorem ledBy_importStatement : Shape.importStatement.LedBy "import".toList :=
  indentedBy_importStatement.ledBy

theorem ledBy_exportList : Shape.exportList.LedBy "export".toList :=
  indentedBy_exportList.ledBy

end LivePreview.Script
