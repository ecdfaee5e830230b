/-
  LivePreview.Proofs.ExportLists

  Export lists go, up to the end of their line (`erase_exportList`).

  A list may be carried on by what stands behind it: by `from` and a specifier
  (`Item.leadsWithFrom`), or after a bare `*` by `as` and a name (`Item.isClosedList`).
-/

import LivePreview.Proofs.ImportStatements

namespace LivePreview.Script

open Pattern

variable {last : Option Char}

/-! ## What stands behind an export list -/

/-- A word that begins with another character. -/
theorem isPrefixOf_cons_of_ne {word : List Char} {c : Char} (h : word.head?.any (· != c) = true)
    (s : List Char) : word.isPrefixOf (c :: s) = false := by
  cases word with
  | nil => cases h
  | cons d word =>
    have hne : (d == c) = false := by simpa using h
    rw [List.isPrefixOf, hne, Bool.false_and]

theorem leadsWith_cons_of_ne {word : String} {c : Char}
    (hword : word.toList.head?.any (· != c) = true) (hc : Text.isBlank c = false)
    (s : List Char) : leadsWith word (c :: s) = false := by
  rw [leadsWith, List.dropWhile_cons_of_neg (by simp [hc]), isPrefixOf_cons_of_ne hword,
    Bool.false_and]

theorem leadsWith_append_white (word : String) (w : White) (s : List Char) :
    leadsWith word (w.chars ++ s) = leadsWith word s := by
  rw [leadsWith, leadsWith, List.dropWhile_append_of_pos w.blank]

theorem leadsWith_lineFeed (word : String) (s : List Char) :
    leadsWith word ('\n' :: s) = leadsWith word s :=
  leadsWith_append_white word ⟨['\n'], List.all_eq_true.mp (by decide)⟩ s

/-- The word leads a text whose first line is not blank only if it leads that line. -/
theorem leadsWith_line {word : String} (hword : '\n' ∉ word.toList) {t r : List Char}
    (ht : leadsWith word t = false) (hr : leadsWith word r = false) :
    leadsWith word (t ++ '\n' :: r) = false := by
  -- By induction on the line: white space is passed over, anything else decides.
  induction t with
  | nil => rwa [List.nil_append, leadsWith_lineFeed]
  | cons c t ih =>
    by_cases hc : Text.isBlank c = true
    · -- The rest of the line leads the text in its place.
      rw [leadsWith, List.dropWhile_cons_of_pos hc, ← leadsWith] at ht
      rw [leadsWith, List.cons_append, List.dropWhile_cons_of_pos hc, ← leadsWith]
      exact ih ht
    · rw [leadsWith, List.dropWhile_cons_of_neg hc, Bool.and_eq_false_iff] at ht
      rw [leadsWith, List.cons_append, List.dropWhile_cons_of_neg hc, ← List.cons_append,
        isPrefixOf_append_cons hword, Bool.and_eq_false_iff]
      by_cases hbegins : word.toList <+: c :: t
      · -- The word stands in the line, and the line feed ends a name as the end does.
        rw [List.drop_append_of_le_length hbegins.length_le, endsName_append_lineFeed]
        exact ht
      · left
        rw [Bool.eq_false_iff, Ne, List.isPrefixOf_iff_prefix]
        exact hbegins

theorem wordThenName_cons_of_ne {word : String} {c : Char}
    (hword : word.toList.head?.any (· != c) = true) (s : List Char) :
    wordThenName word (c :: s) = false := by
  rw [wordThenName, isPrefixOf_cons_of_ne hword, Bool.false_and]

namespace Item

/-- A plain item that goes on an export list without a source. -/
def leadsWithFrom : Item → Bool
  | plain text => leadsWith "from" text
  | _ => false

/-- The item without import statements and export lists. -/
def unlisted : Item → List Char
  | importing .. => []
  | list .. => ['\n']
  | i => i.text

/-- An export list keeps no groups. -/
def listGroups : Item → List (List (List Char))
  | list .. => [[]]
  | _ => []

/-- A bare `*` is not carried on by `as` and a name. -/
def isClosedList (behind : List Item) : Item → Bool
  | list _ .all none _ false =>
    !wordThenName "as" ((behind.flatMap unimported).dropWhile Text.isBlank)
  | _ => true

end Item

/-- No item is taken for the source of the export list before it. -/
theorem leadsWith_unimported {items : List Item} (h : ∀ i ∈ items, i.leadsWithFrom = false) :
    leadsWith "from" (items.flatMap Item.unimported) = false := by
  -- Imports are gone, so the items behind them decide.
  induction items with
  | nil => rfl
  | cons i rest ih =>
    have hrest := ih fun j hj => h j (List.mem_cons_of_mem i hj)
    have hexport : ∀ s, leadsWith "from" ("export".toList ++ s) = false :=
      fun s => leadsWith_cons_of_ne (c := 'e') (by decide) (by decide) ("xport".toList ++ s)
    rw [List.flatMap_cons]
    cases i with
    | plain text =>
      show leadsWith "from" (text ++ ['\n'] ++ rest.flatMap Item.unimported) = false
      rw [List.append_assoc]
      exact leadsWith_line (by decide) (h _ List.mem_cons_self) hrest
    | importing => exact hrest
    | defaultFunction => exact hexport _
    | defaultValue => exact hexport _
    | declaration => exact hexport _
    | list => exact hexport _

/-! ## Export lists -/

/-- `export` at the beginning of a line, and white space. -/
def exportHead : Pattern :=
  Shape.lineIndent ++ wordBoundary ++ literal "export" ++ Shape.blanks

/-- The name of everything that a list exports. -/
def asName : Pattern := Shape.blanks ++ literal "as" ++ Shape.blanks1 ++ identifier

/-- What is listed: names between braces, or everything. -/
def listedNames : Pattern :=
  char '\x7b' ++ many (· != '\x7d') ++ char '\x7d' ||| char '*' ++ optional asName

/-- The source of an export list. -/
def listSource : Pattern :=
  Shape.blanks ++ literal "from" ++ Shape.blanks ++ Shape.quotedSpecifier

theorem exportList_eq : Shape.exportList = exportHead ++ listedNames ++ optional listSource ++
    Shape.indent ++ optional (char ';') := rfl

theorem prefers_exportHead (hlast : AtLine last) (w : White) {r : List Char}
    (hr : Stops Text.isBlank r) : exportHead.Prefers last ("export".toList ++ w.chars) r [] := by
  have hindent : Shape.lineIndent.Prefers last []
      ("export".toList ++ (w.chars ++ r)) [] :=
    ((prefers_lineStart (hlast.atLineStart _)).seq_nothing
      (prefers_no_indent (c := 'e') (by decide) _ _)).optional
  have hboundary : wordBoundary.Prefers last [] ("export".toList ++ (w.chars ++ r)) [] :=
    prefers_wordBoundary (isWordBoundary_of_indent hlast ⟨[], by simp⟩ (c := 'e') (by decide))
  exact ((hindent.seq_nothing hboundary).seq (prefers_literal "export" _ _)).seq
    (prefers_blanks w hr)

/-- Nothing that comes behind white space and another word is a source. -/
theorem fails_listSource {s : List Char} (h : leadsWith "from" s = false) :
    listSource.Fails last s := by
  rw [fails_iff]
  rintro _ r gs rfl ⟨t, _, gs', _, rfl, rfl, hblanks, hspec⟩
  obtain ⟨⟨spec, rfl⟩, rfl⟩ := takes_quotedSpecifier.mp hspec
  obtain ⟨_, v, rfl, hfrom⟩ := takes_seq_blanks.mp hblanks
  obtain ⟨_, rfl, hbefore⟩ := takes_seq_literal.mp hfrom
  obtain ⟨w, rfl, -⟩ := exists_white_of_takes_blanks hbefore
  -- Behind `from` stands white space or a quote, so the word ends there.
  have hends : endsName (v.chars ++ (spec.chars ++ r)) = true := by
    obtain ⟨v, hv⟩ := v
    cases v with
    | nil => simp [endsName, Specifier.chars, isWord_of_isQuote spec.opening_isQuote]
    | cons c v => simp [endsName, isWord_of_isBlank (hv c List.mem_cons_self)]
  have hleads : leadsWith "from" ("from".toList ++ (v.chars ++ (spec.chars ++ r))) = true := by
    have hdrop : ("from".toList ++ (v.chars ++ (spec.chars ++ r))).dropWhile Text.isBlank =
        "from".toList ++ (v.chars ++ (spec.chars ++ r)) :=
      List.dropWhile_cons_of_neg (by decide)
    rw [leadsWith, hdrop, List.drop_left, hends, Bool.and_true, List.isPrefixOf_iff_prefix]
    exact List.prefix_append _ _
  rw [List.append_assoc, List.append_assoc, List.append_assoc, leadsWith_append_white, hleads] at h
  cases h

theorem prefers_listSource (source : Source) (last : Option Char) (r : List Char) :
    listSource.Prefers last source.chars r [] := by
  have hquote : Stops Text.isBlank (source.specifier.chars ++ r) := source.specifier.stops_isBlank r
  exact (((prefers_blanks source.before (stops_cons.mpr (by decide))).seq
    (prefers_literal "from" _ _)).seq (prefers_blanks source.after hquote)).seq
    (prefers_quotedSpecifier source.specifier _ r)

/-- No name stands behind a star that is not carried on. -/
theorem fails_asName {s : List Char}
    (h : wordThenName "as" (s.dropWhile Text.isBlank) = false) : asName.Fails last s := by
  rw [fails_iff]
  rintro _ r gs rfl ⟨t, n, gs', _, rfl, rfl, hgap, hname⟩
  obtain ⟨_, g, rfl, has⟩ := takes_seq_blanks1.mp hgap
  obtain ⟨_, rfl, hbefore⟩ := takes_seq_literal.mp has
  obtain ⟨w, rfl, -⟩ := exists_white_of_takes_blanks hbefore
  obtain ⟨c, cs, rfl, hc, -⟩ := Name.exists_cons ⟨n, (takes_identifier.mp hname).1⟩
  have hdrop : (w.chars ++ "as".toList ++ g.chars ++ (c :: cs) ++ r).dropWhile Text.isBlank =
      "as".toList ++ (g.chars ++ c :: (cs ++ r)) := by
    rw [List.append_assoc, List.append_assoc, List.append_assoc,
      List.dropWhile_append_of_pos w.blank]
    exact List.dropWhile_cons_of_neg (by decide)
  rw [hdrop, wordThenName_of_eq g rfl hc] at h
  cases h

theorem prefers_asName (before : White) (after : Gap) (n : Name) (last : Option Char)
    {r : List Char} (hr : endsName r = true) : asName.Prefers last
      (before.chars ++ "as".toList ++ after.chars ++ n.chars) r [] := by
  have hname : Stops Text.isBlank (n.chars ++ r) := n.stops_isBlank r
  exact (((prefers_blanks before (stops_cons.mpr (by decide))).seq
    (prefers_literal "as" _ _)).seq (prefers_blanks1 after hname)).seq
    (prefers_identifier n (stops_isIdentifierPart hr))

theorem dropWhile_listEnd (before : Spaces) (semicolon : Bool) (r : List Char) :
    (Item.listEnd before semicolon ++ '\n' :: r).dropWhile Text.isBlank =
      if semicolon then ';' :: '\n' :: r else r.dropWhile Text.isBlank := by
  have hblank : ∀ c ∈ before.chars, Text.isBlank c = true := before.toWhite.blank
  rw [Item.listEnd, List.append_assoc, List.dropWhile_append_of_pos hblank]
  cases semicolon <;> rfl

theorem fails_listSource_listEnd (before : Spaces) (semicolon : Bool) {r : List Char}
    (h : leadsWith "from" r = false) :
    listSource.Fails last (Item.listEnd before semicolon ++ '\n' :: r) := by
  apply fails_listSource
  rw [leadsWith, dropWhile_listEnd]
  cases semicolon with
  | true => rfl
  | false => exact h

theorem prefers_listedNames (listed : Listed) (last : Option Char) {r : List Char}
    (hname : ∀ before after n, listed = .allAs before after n → endsName r = true)
    (hall : listed = .all → wordThenName "as" (r.dropWhile Text.isBlank) = false) :
    listedNames.Prefers last listed.chars r [] := by
  have hbraces : ∀ s, (char '\x7b' ++ many (· != '\x7d') ++ char '\x7d').Fails last ('*' :: s) :=
    fun s => ((fails_char (by decide) last s).seq _).seq _
  cases listed with
  | names text closed =>
    have hinside : ∀ c ∈ text, (c != '\x7d') = true := by
      intro c hc
      rw [bne_iff_ne]
      rintro rfl
      exact closed hc
    exact (((prefers_char '\x7b' last _).seq (prefers_many hinside (stops_cons.mpr rfl))).seq
      (prefers_char '\x7d' _ r)).either_left
  | all =>
    -- A name is looked for behind the star and given up.
    exact .either_right (hbraces r)
      ((prefers_char '*' last r).seq_nothing (prefers_optional_nothing (fails_asName (hall rfl))))
  | allAs before after n =>
    have hstar := (prefers_char '*' last _).seq
      (prefers_asName before after n (some '*') (hname before after n rfl)).optional
    exact .either_right (hbraces _) hstar

/-- The names end where the source of the list, or its end, begins. -/
theorem prefers_listedNames_listTail (listed : Listed) (source : Option Source) (before : Spaces)
    (semicolon : Bool) (last : Option Char) {r : List Char}
    (hname : ∀ b a n, listed = .allAs b a n →
      endsName (Item.listTail source before semicolon) = true)
    (hall : listed = .all → source = none → semicolon = false →
      wordThenName "as" (r.dropWhile Text.isBlank) = false) :
    listedNames.Prefers last listed.chars (Item.listTail source before semicolon ++ '\n' :: r)
      [] := by
  apply prefers_listedNames
  · intro b a n h
    rw [endsName_append_lineFeed]
    exact hname b a n h
  · intro h
    cases source with
    | none =>
      -- A semicolon closes the list; without it the next items have to.
      rw [Item.listTail, Option.map_none, Option.getD_none, List.nil_append, dropWhile_listEnd]
      cases semicolon with
      | true => rfl
      | false => exact hall h rfl rfl
    | some source =>
      -- The word `from` comes first.
      have hdrop : ∀ s, (source.before.chars ++ 'f' :: s).dropWhile Text.isBlank = 'f' :: s := by
        intro s
        rw [List.dropWhile_append_of_pos source.before.blank]
        exact List.dropWhile_cons_of_neg (by decide)
      have htail : Item.listTail (some source) before semicolon ++ '\n' :: r =
          source.before.chars ++ 'f' :: ("rom".toList ++ (source.after.chars ++
            (source.specifier.chars ++ (Item.listEnd before semicolon ++ '\n' :: r)))) := by
        simp [Item.listTail, Source.chars]
      rw [htail, hdrop]
      exact wordThenName_cons_of_ne (by decide) _

/-- The source of a list is taken if there is one. -/
theorem prefers_optional_listSource (source : Option Source) (before : Spaces)
    (semicolon : Bool) (last : Option Char) {r : List Char}
    (hfrom : source = none → leadsWith "from" r = false) :
    (optional listSource).Prefers last ((source.map Source.chars).getD [])
      (Item.listEnd before semicolon ++ '\n' :: r) [] := by
  cases source with
  | none => exact prefers_optional_nothing (fails_listSource_listEnd before semicolon (hfrom rfl))
  | some source => exact (prefers_listSource source _ _).optional

/-- The end of a list is taken up to the line feed. -/
theorem prefers_listEnd {p : Pattern} {t r : List Char} {gs : List (List Char)}
    {before : Spaces} {semicolon : Bool}
    (h : p.Prefers last t (Item.listEnd before semicolon ++ '\n' :: r) gs) :
    (p ++ Shape.indent ++ optional (char ';')).Prefers last (t ++ Item.listEnd before semicolon)
      ('\n' :: r) gs := by
  cases semicolon with
  | true =>
    have hend : Item.listEnd before true ++ '\n' :: r = before.chars ++ ';' :: '\n' :: r := by
      simp [Item.listEnd]
    rw [hend] at h
    have hindent := h.seq (prefers_indent before (stops_cons.mpr (by decide)))
    have hline := hindent.seq (u := [';']) (prefers_char ';' _ ('\n' :: r)).optional
    simpa only [Item.listEnd, if_true, List.append_nil, List.append_assoc] using hline
  | false =>
    have hend : Item.listEnd before false ++ '\n' :: r = before.chars ++ '\n' :: r := by
      simp [Item.listEnd]
    rw [hend] at h
    have hindent := h.seq (prefers_indent before (stops_cons.mpr (by decide)))
    have hline := hindent.seq_nothing (prefers_no_char (c := ';') (by decide) _ r)
    simpa only [Item.listEnd, Bool.false_eq_true, if_false, List.append_nil,
      List.append_assoc] using hline

/-- An export list goes up to the end of its line. -/
theorem prefers_exportList (hlast : AtLine last) (gap : White) (listed : Listed)
    (source : Option Source) (before : Spaces) (semicolon : Bool) {r : List Char}
    (hname : ∀ b a n, listed = .allAs b a n →
      endsName (Item.listTail source before semicolon) = true)
    (hall : listed = .all → source = none → semicolon = false →
      wordThenName "as" (r.dropWhile Text.isBlank) = false)
    (hfrom : source = none → leadsWith "from" r = false) :
    Shape.exportList.Prefers last ("export".toList ++ gap.chars ++ listed.chars ++
      Item.listTail source before semicolon) ('\n' :: r) [] := by
  have hgap : Stops Text.isBlank (listed.chars ++ (Item.listTail source before semicolon ++
      '\n' :: r)) := by
    cases listed <;> exact stops_cons.mpr (by decide)
  have hlisted := prefers_listedNames_listTail listed source before semicolon
    (lastAfter last ("export".toList ++ gap.chars)) hname hall
  have hsource := prefers_optional_listSource source before semicolon
    (lastAfter last ("export".toList ++ gap.chars ++ listed.chars)) hfrom
  -- What stands behind the names is the source, if there is one, and the end.
  have hrest : Item.listTail source before semicolon ++ '\n' :: r =
      (source.map Source.chars).getD [] ++ (Item.listEnd before semicolon ++ '\n' :: r) := by
    rw [Item.listTail, List.append_assoc]
  rw [hrest] at hgap hlisted
  have hnames := ((prefers_exportHead hlast gap hgap).seq hlisted).seq hsource
  rw [Item.listTail, ← List.append_assoc, exportList_eq]
  exact prefers_listEnd hnames

/-- A brace or a star begins what is listed. -/
theorem exists_of_takes_exportList {t r : List Char} {gs : List (List Char)}
    (h : Shape.exportList.Takes last t r gs) : ∃ b, ∃ w : White, ∃ d t',
      t = b ++ ("export".toList ++ (w.chars ++ d :: t')) ∧
      (∀ c ∈ b, (c == ' ' || c == '\t') = true) ∧ (d = '\x7b' ∨ d = '*') := by
  rw [exportList_eq] at h
  obtain ⟨_, x₁, _, _, rfl, -, ⟨_, x₂, _, _, rfl, -, ⟨_, x₃, _, _, rfl, -,
    ⟨_, t, _, _, rfl, -, hhead, hlisted⟩, -⟩, -⟩, -⟩ := h
  obtain ⟨_, w, rfl, hword⟩ := takes_seq_blanks.mp hhead
  obtain ⟨_, rfl, hstart⟩ := takes_seq_literal.mp hword
  obtain ⟨b, _, _, _, rfl, -, hindent, ⟨rfl, -, -⟩⟩ := hstart
  have hspaces := (indent_of_takes_lineIndent hindent).1
  obtain ⟨d, t', rfl, hd⟩ : ∃ d t', t = d :: t' ∧ (d = '\x7b' ∨ d = '*') := by
    rcases hlisted with ⟨_, _, _, _, rfl, -, ⟨_, _, _, _, rfl, -, hchar, -⟩, -⟩ |
      ⟨_, _, _, _, rfl, -, hchar, -⟩
    · obtain ⟨rfl, -⟩ := takes_char.mp hchar
      exact ⟨'\x7b', _, rfl, .inl rfl⟩
    · obtain ⟨rfl, -⟩ := takes_char.mp hchar
      exact ⟨'*', _, rfl, .inr rfl⟩
  exact ⟨b, w, d, t' ++ x₃ ++ x₂ ++ x₁, by simp, hspaces, hd⟩

/-- What begins with a letter is not a list. -/
theorem fails_exportList (g : White) {c : Char} (hc : isIdentifierPart c = true)
    (s : List Char) : Shape.exportList.Fails last ("export".toList ++ (g.chars ++ c :: s)) := by
  rw [fails_iff]
  rintro _ r gs heq htakes
  obtain ⟨b, w, d, t', rfl, hspaces, hd⟩ := exists_of_takes_exportList htakes
  -- There are no spaces before `export`, so the match begins with the word.
  cases b with
  | cons e b =>
    obtain rfl : 'e' = e := (List.cons.inj heq).1
    exact absurd (hspaces 'e' List.mem_cons_self) (by decide)
  | nil =>
    have hword : "export".toList ++ (g.chars ++ c :: s) =
        "export".toList ++ (w.chars ++ d :: (t' ++ r)) := by
      simpa using heq
    have hrest := List.append_cancel_left hword
    have hdblank : Text.isBlank d = false := by
      rcases hd with rfl | rfl <;> decide
    obtain ⟨-, hcons⟩ := run_unique hrest g.blank w.blank
      (stops_cons.mpr (isBlank_of_isIdentifierPart hc)) (stops_cons.mpr hdblank)
    -- The first character behind the white space would be both a letter and a sign.
    obtain rfl : c = d := (List.cons.inj hcons).1
    rcases hd with rfl | rfl <;> exact absurd hc (by decide)

/-- What goes on with a letter behind `export` stays. -/
theorem reads_exportList_letter (g : Gap) {c : Char} (hc : isIdentifierPart c = true)
    {body s : List Char} (hbody : body = g.chars ++ c :: s) (hbare : Keywordless body)
    (r : List Char) : Shape.exportList.Reads (fun _ => []) last ("export".toList ++ body ++ ['\n'])
      r ("export".toList ++ body ++ ['\n']) [] := by
  refine reads_exported ledBy_exportList hbare ?_
  rw [hbody, List.append_assoc]
  exact fails_exportList g.toWhite hc _

/-- A list that is matched is taken out up to the end of its line. -/
theorem reads_exportList_list {gap : White} {listed : Listed} {source : Option Source}
    {before : Spaces} {semicolon : Bool} {r : List Char}
    (h : Shape.exportList.Prefers last ("export".toList ++ gap.chars ++ listed.chars ++
      Item.listTail source before semicolon) ('\n' :: r) []) :
    Shape.exportList.Reads (fun _ => []) last
      (Item.list gap listed source before semicolon).text r ['\n'] [[]] := by
  have hhit : Shape.exportList.Reads (fun _ => []) last ("export".toList ++ gap.chars ++
      listed.chars ++ Item.listTail source before semicolon) (['\n'] ++ r) [] [[]] :=
    reads_hit h (by simp)
  have hline : Shape.exportList.Reads (fun _ => []) (lastAfter last ("export".toList ++ gap.chars ++
      listed.chars ++ Item.listTail source before semicolon)) ['\n'] r ['\n'] [] :=
    reads_plain ledBy_exportList (s := []) (by decide) _
  have hall := hhit.append hline
  rw [Item.text_list]
  exact hall

/-- What the second pass leaves of an item. -/
theorem reads_exportList {i : Item} {behind : List Item} (hi : i.WellFormed)
    (hclosed : i.isClosedList behind = true)
    (hfrom : i.isList = true → leadsWith "from" (behind.flatMap Item.unimported) = false)
    (hlast : AtLine last) : Shape.exportList.Reads (fun _ => []) last i.unimported
      (behind.flatMap Item.unimported) i.unlisted i.listGroups := by
  cases i with
  | plain text => exact reads_plain ledBy_exportList hi.1 _
  | importing => exact reads_nil last _
  | defaultFunction g₁ g₂ g₃ n text =>
    exact reads_exportList_letter g₁ (c := 'd') (by decide)
      (Item.body_defaultFunction g₁ g₂ g₃ n text) hi.1 _
  | defaultValue g₁ g₂ value =>
    exact reads_exportList_letter g₁ (c := 'd') (by decide)
      (Item.body_defaultValue g₁ g₂ value) hi.1 _
  | declaration gap keyword declared =>
    obtain ⟨c, s, hkeyword, hc, -⟩ := keyword.exists_cons
    refine reads_exportList_letter gap (s := s ++ declared.chars) (isIdentifierPart_of_start hc)
      ?_ hi.1 _
    rw [Item.body_declaration, hkeyword, List.cons_append]
  | list gap listed source before semicolon =>
    refine reads_exportList_list (prefers_exportList hlast gap listed source before semicolon
      ?_ ?_ fun _ => hfrom rfl)
    · rintro b a n rfl
      exact hi.2
    · rintro rfl rfl rfl
      rw [Item.isClosedList, Bool.not_eq_true'] at hclosed
      exact hclosed

/-- The second pass takes export lists out. -/
theorem erase_exportList {items : List Item} (h : ∀ i ∈ items, i.WellFormed)
    (hclosed : ∀ i behind, i :: behind <:+ items → i.isClosedList behind = true)
    (hfrom : ∀ i behind, i :: behind <:+ items → i.isList = true →
      leadsWith "from" (behind.flatMap Item.unimported) = false) :
    Shape.exportList.erase (items.flatMap Item.unimported) = items.flatMap Item.unlisted := by
  have hreads : Shape.exportList.Reads (fun _ => []) none (items.flatMap Item.unimported) []
      (items.flatMap Item.unlisted) (items.flatMap Item.listGroups) := by
    refine reads_flatMap Item.endsLine_unimported ?_ atLine_none
    intro i behind hbehind last hlast
    have hitem := h i (hbehind.mem List.mem_cons_self)
    exact reads_exportList hitem (hclosed i behind hbehind) (hfrom i behind hbehind) hlast
  exact hreads.replace_eq

end LivePreview.Script
