/-
  LivePreview.Proofs.Recording

  What is recorded of a script, item by item.

  The three recorded shapes are looked for in the whole text.  Each matches at the
  leading word of an item or not at all (`reads_defaultExport`, `reads_namedExport`,
  `reads_defaultImport`).  A match ends inside its item, unless the item breaks off at
  a word behind which a name is looked for: `function` of a default export, or the word
  that begins a declaration (`Item.isRecordable`).
-/

import LivePreview.Proofs.DefaultImports
import LivePreview.Proofs.Stripping
import LivePreview.Script.ModuleRecord

namespace LivePreview.Script

open Pattern

variable {last : Option Char}

/-! ## Items that say what they name -/

/-- The word at the beginning of a text names no binding, or there is none. -/
def namesNoBinding (s : List Char) : Bool :=
  !s.head?.any isIdentifierStart ||
    nonBindingWords.contains (String.ofList (s.takeWhile isIdentifierPart))

/-- Functions and variables are recorded; classes and asynchronous functions are not. -/
def Keyword.isRecorded : Keyword → Bool
  | asyncFunction _ => false
  | classWord => false
  | _ => true

namespace Item

/-- A clause or a value of another form is not a single name in disguise, a recorded
    specifier is not empty, and a word that a name may follow is not followed by the
    name that the items behind begin with. -/
def isRecordable (behind : List Item) : Item → Bool
  | importing _ _ (.name _ _ _) s _ => !s.text.isEmpty
  | importing _ _ (.other text _) _ _ => !isOneName text.chars
  | defaultValue _ _ (.other text) =>
    namesNoBinding text && !wordThenName "function" (text ++ '\n' :: textOf behind)
  | declaration _ _ (.name _ _ text) => endsName text
  | declaration _ keyword (.other text) =>
    !keyword.isRecorded || !nameFollows (text ++ '\n' :: textOf behind)
  | _ => true

/-- The name behind a default export. -/
def defaultGroups : Item → List (List (List Char))
  | defaultFunction _ _ _ n _ => [[n.chars]]
  | defaultValue _ _ (.name n) => [[n.chars]]
  | defaultValue _ _ (.other text) =>
    if text.head?.any isIdentifierStart then [[text.takeWhile isIdentifierPart]] else []
  | _ => []

/-- The name of an exported declaration. -/
def namedGroups : Item → List (List (List Char))
  | declaration _ keyword (.name _ n _) => if keyword.isRecorded then [[n.chars]] else []
  | _ => []

/-- The name and the specifier of an import. -/
def defaultImportGroups : Item → List (List (List Char))
  | importing _ _ (.name n _ _) s _ => [[n.chars, s.text]]
  | _ => []

end Item

/-! ## Default exports -/

/-- The word `function` and white space. -/
def functionBefore : Pattern := literal "function" ++ Shape.blanks1

theorem defaultExport_eq : Shape.defaultExport =
    Shape.defaultExpression ++ optional functionBefore ++ group identifier := rfl

theorem prefers_defaultExport_function (last : Option Char) (g₁ g₂ g₃ : Gap) (n : Name)
    {r : List Char} (hr : Stops isIdentifierPart r) : Shape.defaultExport.Prefers last
      ("export".toList ++ g₁.chars ++ "default".toList ++ g₂.chars ++
        ("function".toList ++ g₃.chars) ++ n.chars) r [n.chars] := by
  have hname : Stops Text.isBlank (n.chars ++ r) := n.stops_isBlank r
  have hword : Stops Text.isBlank ("function".toList ++ g₃.chars ++ (n.chars ++ r)) :=
    stops_cons.mpr (by decide)
  have hdefault := prefers_defaultExpression last g₁ g₂ hword
  have hfunction : functionBefore.Prefers
      (lastAfter last ("export".toList ++ g₁.chars ++ "default".toList ++ g₂.chars))
      ("function".toList ++ g₃.chars) (n.chars ++ r) [] :=
    (prefers_literal "function" _ _).seq (prefers_blanks1 g₃ hname)
  exact (hdefault.seq hfunction.optional).seq (prefers_identifier n hr).group

/-- A value that is no named function begins with the name that is recorded. -/
theorem prefers_defaultExport_value (last : Option Char) (g₁ g₂ : Gap) (n : Name)
    {r : List Char} (hr : Stops isIdentifierPart r)
    (hfunction : wordThenName "function" (n.chars ++ r) = false) :
    Shape.defaultExport.Prefers last
      ("export".toList ++ g₁.chars ++ "default".toList ++ g₂.chars ++ n.chars) r [n.chars] := by
  have hname : Stops Text.isBlank (n.chars ++ r) := n.stops_isBlank r
  have hfails : ∀ last, (functionBefore ++ group identifier).Fails last (n.chars ++ r) := by
    intro last
    rw [fails_iff]
    intro t r' gs heq htakes
    obtain ⟨_, _, m, rfl, -, hbefore⟩ := takes_seq_identifier.mp htakes
    obtain ⟨_, g, rfl, hword⟩ := takes_seq_blanks1.mp hbefore
    obtain ⟨rfl, -⟩ := takes_literal.mp hword
    obtain ⟨c, cs, hm, hc, -⟩ := m.exists_cons
    have htext : n.chars ++ r = "function".toList ++ (g.chars ++ c :: (cs ++ r')) := by
      rw [heq, hm]
      simp only [List.append_assoc, List.cons_append]
    rw [wordThenName_of_eq g htext hc] at hfunction
    cases hfunction
  -- The optional word is tried first and given up when no name follows it.
  rw [defaultExport_eq, prefers_assoc]
  have hvalue : ∀ last, (nothing ++ group identifier).Prefers last n.chars r [n.chars] :=
    fun last => (prefers_nothing last (n.chars ++ r)).seq (prefers_identifier n hr).group
  exact (prefers_defaultExpression last g₁ g₂ hname).seq
    (.either_seq_right (hfails _) (hvalue _))

/-- What begins with no name is not recorded. -/
theorem fails_defaultExport (last : Option Char) (g₁ g₂ : Gap) {s : List Char}
    (hs : Stops Text.isBlank s) (hname : s.head?.any isIdentifierStart = false) :
    Shape.defaultExport.Fails last
      ("export".toList ++ (g₁.chars ++ ("default".toList ++ (g₂.chars ++ s)))) := by
  rw [fails_iff]
  intro t r gs heq htakes
  obtain ⟨_, _, n, rfl, -, u, v, _, _, rfl, -, hdefault, hfunction⟩ :=
    takes_seq_identifier.mp htakes
  obtain ⟨k₁, k₂, rfl, -⟩ := takes_defaultExpression.mp hdefault
  -- What is matched behind the gap begins with `function` or with the name.
  obtain ⟨c, w, hvalue, hc⟩ : ∃ c w, v ++ (n.chars ++ r) = c :: w ∧
      isIdentifierStart c = true := by
    rcases hfunction with hword | ⟨rfl, -⟩
    · obtain ⟨_, g, rfl, hliteral⟩ := takes_seq_blanks1.mp hword
      obtain ⟨rfl, -⟩ := takes_literal.mp hliteral
      exact ⟨'f', _, rfl, by decide⟩
    · obtain ⟨c, cs, hn, hc, -⟩ := n.exists_cons
      exact ⟨c, cs ++ r, by rw [hn]; rfl, hc⟩
  have hblank : Text.isBlank c = false :=
    isBlank_of_isIdentifierPart (isIdentifierPart_of_start hc)
  simp only [List.append_assoc, hvalue] at heq
  have hsame := defaultExpression_unique heq hs (stops_cons.mpr hblank)
  rw [hsame, List.head?_cons, Option.any_some, hc] at hname
  cases hname

/-- The name at the beginning of a value. -/
theorem exists_name_of_head {s : List Char} (h : s.head?.any isIdentifierStart = true) :
    ∃ n : Name, n.chars = s.takeWhile isIdentifierPart := by
  cases s with
  | nil => cases h
  | cons c s =>
    have hc : isIdentifierStart c = true := h
    have hpart := isIdentifierPart_of_start hc
    have hvalid : isIdentifier ((c :: s).takeWhile isIdentifierPart) = true := by
      rw [List.takeWhile_cons_of_pos hpart, isIdentifier, hc, Bool.true_and]
      exact List.all_takeWhile
    exact ⟨⟨_, hvalid⟩, rfl⟩

theorem stops_dropWhile (cls : Char → Bool) (s r : List Char) (hr : Stops cls r) :
    Stops cls (s.dropWhile cls ++ r) := by
  cases hs : s.dropWhile cls with
  | nil => exact hr
  | cons c t =>
    rw [List.cons_append, stops_cons]
    have hne : s.dropWhile cls ≠ [] := by simp [hs]
    have hhead := List.head_dropWhile_not cls hne
    simpa [hs] using hhead

/-- A name before a semicolon is followed by no other name. -/
theorem wordThenName_of_semicolon {word : String} (hword : ';' ∉ word.toList) (n : Name)
    (r : List Char) : wordThenName word (n.chars ++ ';' :: r) = false := by
  rw [wordThenName, Bool.and_eq_false_iff]
  by_cases hbegins : word.toList <+: n.chars
  · right
    apply nameFollows_of_stops
    rw [List.drop_append_of_le_length hbegins.length_le]
    cases hdrop : n.chars.drop word.toList.length with
    | nil => exact stops_cons.mpr (by decide)
    | cons c s =>
      have hmem : c ∈ n.chars := List.mem_of_mem_drop (hdrop ▸ List.mem_cons_self)
      exact stops_cons.mpr (isBlank_of_isIdentifierPart (n.isIdentifierPart_of_mem c hmem))
  · left
    rw [isPrefixOf_append_cons hword, Bool.eq_false_iff, Ne, List.isPrefixOf_iff_prefix]
    exact hbegins

/-- A name before a semicolon is read up to the semicolon. -/
theorem reads_defaultExport_name (g₁ g₂ : Gap) (n : Name) (r : List Char) :
    Shape.defaultExport.Reads Match.text last (Item.defaultValue g₁ g₂ (.name n)).text r
      (Item.defaultValue g₁ g₂ (.name n)).text [[n.chars]] := by
  have hled := begins_defaultExport.ledBy
  have hfunction : wordThenName "function" (n.chars ++ ([';'] ++ ['\n'] ++ r)) = false :=
    wordThenName_of_semicolon (by decide) n _
  have hmatch := prefers_defaultExport_value last g₁ g₂ n (r := [';'] ++ ['\n'] ++ r)
    (stops_cons.mpr (by decide)) hfunction
  have hread := reads_rewritten (f := Match.text) hled hmatch (by simp) (by decide)
  have htext : (Item.defaultValue g₁ g₂ (.name n)).text = "export".toList ++ g₁.chars ++
      "default".toList ++ g₂.chars ++ n.chars ++ ([';'] ++ ['\n']) := by
    rw [Item.text_defaultValue, Value.chars]
    simp only [List.append_assoc]
  rw [htext]
  exact hread

/-- The word at the beginning of any other value is read like a name. -/
theorem reads_defaultExport_word {g₁ g₂ : Gap} {text : List Char}
    (hi : (Item.defaultValue g₁ g₂ (.other text)).WellFormed)
    (hstart : text.head?.any isIdentifierStart = true) {r : List Char}
    (hfunction : wordThenName "function" (text ++ '\n' :: r) = false) :
    Shape.defaultExport.Reads Match.text last (Item.defaultValue g₁ g₂ (.other text)).text r
      (Item.defaultValue g₁ g₂ (.other text)).text [[text.takeWhile isIdentifierPart]] := by
  have hled := begins_defaultExport.ledBy
  obtain ⟨n, hn⟩ := exists_name_of_head hstart
  -- The word is matched as a name, and the rest of the value stands behind it.
  have hsplit : n.chars ++ text.dropWhile isIdentifierPart = text := by
    rw [hn]
    exact List.takeWhile_append_dropWhile
  have hrest : Keywordless (text.dropWhile isIdentifierPart) :=
    (keywordless_value hi).mono (List.dropWhile_suffix _).isInfix
  have hends : Stops isIdentifierPart (text.dropWhile isIdentifierPart ++ ['\n'] ++ r) := by
    rw [List.append_assoc]
    exact stops_dropWhile _ text _ (stops_cons.mpr (by decide))
  have hname : wordThenName "function"
      (n.chars ++ (text.dropWhile isIdentifierPart ++ ['\n'] ++ r)) = false := by
    rw [List.append_assoc, ← List.append_assoc, hsplit]
    exact hfunction
  have hmatch := prefers_defaultExport_value last g₁ g₂ n hends hname
  have hread := reads_rewritten (f := Match.text) hled hmatch (by simp) hrest
  have htext : (Item.defaultValue g₁ g₂ (.other text)).text = "export".toList ++ g₁.chars ++
      "default".toList ++ g₂.chars ++ n.chars ++
        (text.dropWhile isIdentifierPart ++ ['\n']) := by
    rw [Item.text_defaultValue, Value.chars]
    conv_lhs => rw [← hsplit]
    simp only [List.append_assoc]
  rw [htext, ← hn]
  exact hread

/-- The name of a function is recorded. -/
theorem reads_defaultExport_function {g₁ g₂ g₃ : Gap} {n : Name} {text : List Char}
    (hi : (Item.defaultFunction g₁ g₂ g₃ n text).WellFormed) (r : List Char) :
    Shape.defaultExport.Reads Match.text last (Item.defaultFunction g₁ g₂ g₃ n text).text r
      (Item.defaultFunction g₁ g₂ g₃ n text).text [[n.chars]] := by
  have hends : endsName (text ++ ['\n'] ++ r) = true := by
    rw [endsName_line]
    exact hi.2
  have hmatch := prefers_defaultExport_function last g₁ g₂ g₃ n (stops_isIdentifierPart hends)
  have hread := reads_rewritten (f := Match.text) begins_defaultExport.ledBy hmatch (by simp)
    (keywordless_name_text hi).of_suffix
  rw [Item.text_defaultFunction]
  simp only [List.append_assoc] at hread ⊢
  exact hread

/-- A value that begins with no letter is passed over. -/
theorem reads_defaultExport_passed {g₁ g₂ : Gap} {text : List Char}
    (hi : (Item.defaultValue g₁ g₂ (.other text)).WellFormed)
    (hstart : text.head?.any isIdentifierStart = false) (r : List Char) :
    Shape.defaultExport.Reads Match.text last (Item.defaultValue g₁ g₂ (.other text)).text r
      (Item.defaultValue g₁ g₂ (.other text)).text [] := by
  have hblank : Stops Text.isBlank (text ++ '\n' :: r) := stops_value hi _
  have hhead : (text ++ '\n' :: r).head?.any isIdentifierStart = false := by
    cases text with
    | nil => rfl
    | cons c s => exact hstart
  refine reads_exported begins_defaultExport.ledBy hi.1 ?_
  rw [Item.body_defaultValue, List.append_assoc, List.append_assoc, List.append_assoc]
  exact fails_defaultExport last g₁ g₂ hblank hhead

/-- What is recorded of the default export of an item. -/
theorem reads_defaultExport {i : Item} (hi : i.WellFormed) {behind : List Item}
    (hrecord : i.isRecordable behind = true) : Shape.defaultExport.Reads Match.text last i.text
      (textOf behind) i.text i.defaultGroups := by
  have hled := begins_defaultExport.ledBy
  cases i with
  | plain text => exact reads_plain hled hi.1 _
  | importing => exact reads_importing hled hi _
  | defaultFunction g₁ g₂ g₃ n text => exact reads_defaultExport_function hi _
  | defaultValue g₁ g₂ v =>
    cases v with
    | name n => exact reads_defaultExport_name g₁ g₂ n _
    | other text =>
      rw [Item.isRecordable, Bool.and_eq_true, Bool.not_eq_true'] at hrecord
      rw [Item.defaultGroups]
      cases hstart : text.head?.any isIdentifierStart with
      | true => exact reads_defaultExport_word hi hstart hrecord.2
      | false => exact reads_defaultExport_passed hi hstart _
  | declaration g k d =>
    -- The shape begins like a default export, so it fails where that one does.
    exact reads_declaration hled (fun g k s =>
      ((fails_defaultExpression_of_keyword g k s).seq _).seq _) hi _
  | list gap listed source before semicolon =>
    obtain ⟨c, s, hbody, hc⟩ := Item.exists_body_list gap listed source before semicolon
    have hsign : Text.isBlank c = false ∧ c ≠ 'd' := by
      rcases hc with rfl | rfl <;> decide
    refine reads_exported hled hi.1 ?_
    rw [hbody, List.append_assoc]
    exact ((fails_defaultExpression gap hsign.1 hsign.2 _).seq _).seq _

/-! ## Exported declarations -/

/-- The words behind which a declared name is recorded. -/
def recordedWords : List String := ["function", "const", "let", "var"]

theorem namedExport_eq : Shape.namedExport =
    literal "export" ++ Shape.blanks1 ++ oneOf recordedWords ++ Shape.blanks1 ++
      group identifier := rfl

/-- No word that begins a declaration begins another one. -/
theorem prefixFree_words : PrefixFree ["function", "const", "let", "var", "class"] := by decide

theorem prefixFree_recordedWords : PrefixFree recordedWords := by decide

theorem Keyword.exists_recordedWord {k : Keyword} (h : k.isRecorded = true) :
    ∃ word ∈ recordedWords, k.chars = word.toList := by
  cases k with
  | function => exact ⟨"function", by decide, rfl⟩
  | asyncFunction gap => cases h
  | constWord => exact ⟨"const", by decide, rfl⟩
  | letWord => exact ⟨"let", by decide, rfl⟩
  | varWord => exact ⟨"var", by decide, rfl⟩
  | classWord => cases h

theorem prefers_namedExport (last : Option Char) (g h : Gap) {k : Keyword}
    (hk : k.isRecorded = true) (n : Name) {r : List Char} (hr : endsName r = true) :
    Shape.namedExport.Prefers last
      ("export".toList ++ g.chars ++ k.chars ++ h.chars ++ n.chars) r [n.chars] := by
  obtain ⟨word, hword, hchars⟩ := Keyword.exists_recordedWord hk
  have hname : Stops Text.isBlank (n.chars ++ r) := n.stops_isBlank r
  have hgap : Stops Text.isBlank (word.toList ++ (h.chars ++ (n.chars ++ r))) := by
    rw [← hchars]
    exact k.stops _
  rw [hchars, namedExport_eq]
  exact ((((prefers_literal "export" last _).seq (prefers_blanks1 g hgap)).seq
    (prefers_oneOf prefixFree_recordedWords hword _ _)).seq (prefers_blanks1 h hname)).seq
    (prefers_identifier n (stops_isIdentifierPart hr)).group

/-- What begins with none of the words and a name is not recorded. -/
theorem fails_namedExport (last : Option Char) (w : White) {s : List Char}
    (hs : Stops Text.isBlank s) (h : ∀ word ∈ recordedWords, wordThenName word s = false) :
    Shape.namedExport.Fails last ("export".toList ++ (w.chars ++ s)) := by
  rw [fails_iff, namedExport_eq]
  intro t r gs heq htakes
  obtain ⟨_, _, n, rfl, -, hbefore⟩ := takes_seq_identifier.mp htakes
  obtain ⟨_, k, rfl, u, v, _, _, rfl, -, hgap, hwords⟩ := takes_seq_blanks1.mp hbefore
  obtain ⟨_, g, rfl, hexport⟩ := takes_seq_blanks1.mp hgap
  obtain ⟨rfl, -⟩ := takes_literal.mp hexport
  obtain ⟨⟨word, hword, rfl⟩, -⟩ := takes_oneOf.mp hwords
  obtain ⟨c, cs, hn, hc, -⟩ := n.exists_cons
  have hblank : Stops Text.isBlank (word.toList ++ (k.chars ++ c :: (cs ++ r))) := by
    have hall : ∀ word ∈ recordedWords, word.toList.head?.any (!Text.isBlank ·) = true := by decide
    exact stops_append (hall word hword) _
  simp only [hn, List.append_assoc, List.cons_append] at heq
  obtain ⟨-, hrest⟩ := run_unique (List.append_cancel_left heq) w.blank g.blank hs hblank
  have hfalse := h word hword
  rw [wordThenName_of_eq k hrest hc] at hfalse
  cases hfalse

/-- A declaration that names nothing that is recorded. -/
theorem wordThenName_of_declaration {k : Keyword} {s : List Char}
    (h : k.isRecorded = true → nameFollows s = false) :
    ∀ word ∈ recordedWords, wordThenName word (k.chars ++ s) = false := by
  intro word hword
  have hmem : word ∈ ["function", "const", "let", "var", "class"] := by
    have hall : ∀ w ∈ recordedWords, w ∈ ["function", "const", "let", "var", "class"] := by decide
    exact hall word hword
  have hother : ∀ other ∈ ["function", "const", "let", "var", "class"],
      (other = word → nameFollows s = false) → wordThenName word (other.toList ++ s) = false := by
    intro other hother hs
    by_cases hsame : other = word
    · -- Behind the word itself no name follows.
      subst hsame
      rw [wordThenName, List.drop_left, hs rfl, Bool.and_false]
    · rw [wordThenName, Bool.and_eq_false_iff]
      left
      rw [Bool.eq_false_iff, Ne, List.isPrefixOf_iff_prefix]
      rintro ⟨u, hu⟩
      exact hsame (prefixFree_words.eq_of_append_eq hmem hother hu).symm
  cases k with
  | function => exact hother "function" (by decide) fun _ => h rfl
  | asyncFunction gap =>
    have hall : ∀ w ∈ recordedWords, w.toList.head?.any (· != 'a') = true := by decide
    exact wordThenName_cons_of_ne (hall word hword) _
  | constWord => exact hother "const" (by decide) fun _ => h rfl
  | letWord => exact hother "let" (by decide) fun _ => h rfl
  | varWord => exact hother "var" (by decide) fun _ => h rfl
  | classWord =>
    -- `class` is none of the words.
    refine hother "class" (by decide) ?_
    rintro rfl
    exact absurd hword (by decide)

/-- A name behind a recorded word is read up to its end. -/
theorem reads_namedExport_name {g h : Gap} {k : Keyword} {n : Name} {text : List Char}
    (hi : (Item.declaration g k (.name h n text)).WellFormed) (hk : k.isRecorded = true)
    (htext : endsName text = true) (r : List Char) :
    Shape.namedExport.Reads Match.text last (Item.declaration g k (.name h n text)).text r
      (Item.declaration g k (.name h n text)).text [[n.chars]] := by
  have hends : endsName (text ++ ['\n'] ++ r) = true := by
    rw [endsName_line]
    exact htext
  have hread := reads_rewritten (f := Match.text) begins_namedExport.ledBy
    (prefers_namedExport last g h hk n hends) (by simp) (keywordless_declared hi).of_suffix
  have hline : (Item.declaration g k (.name h n text)).text = "export".toList ++ g.chars ++
      k.chars ++ h.chars ++ n.chars ++ (text ++ ['\n']) := by
    rw [Item.text_declaration, Declared.chars]
    simp only [List.append_assoc]
  rw [hline]
  exact hread

/-- A default export is no exported declaration. -/
theorem fails_namedExport_default (g : Gap) (s : List Char) :
    Shape.namedExport.Fails last ("export".toList ++ (g.chars ++ 'd' :: s)) := by
  refine fails_namedExport last g.toWhite (stops_cons.mpr (by decide)) ?_
  have hall : ∀ w ∈ recordedWords, w.toList.head?.any (· != 'd') = true := by decide
  exact fun word hword => wordThenName_cons_of_ne (hall word hword) s

/-- Unless a recorded word comes before a name, the declaration is passed over. -/
theorem reads_namedExport_passed {g : Gap} {k : Keyword} {d : Declared} {r : List Char}
    (hi : (Item.declaration g k d).WellFormed)
    (h : k.isRecorded = true → nameFollows (d.chars ++ '\n' :: r) = false) :
    Shape.namedExport.Reads Match.text last (Item.declaration g k d).text r
      (Item.declaration g k d).text [] := by
  refine reads_exported begins_namedExport.ledBy hi.1 ?_
  rw [Item.body_declaration, List.append_assoc, List.append_assoc]
  exact fails_namedExport last g.toWhite (k.stops _) (wordThenName_of_declaration h)

/-- What is recorded of the exported declaration of an item. -/
theorem reads_namedExport {i : Item} (hi : i.WellFormed) {behind : List Item}
    (hrecord : i.isRecordable behind = true) : Shape.namedExport.Reads Match.text last i.text
      (textOf behind) i.text i.namedGroups := by
  have hled := begins_namedExport.ledBy
  cases i with
  | plain text => exact reads_plain hled hi.1 _
  | importing => exact reads_importing hled hi _
  | defaultFunction g₁ g₂ g₃ n text =>
    refine reads_exported hled hi.1 ?_
    rw [Item.body_defaultFunction, List.append_assoc]
    exact fails_namedExport_default g₁ _
  | defaultValue g₁ g₂ v =>
    refine reads_exported hled hi.1 ?_
    rw [Item.body_defaultValue, List.append_assoc]
    exact fails_namedExport_default g₁ _
  | declaration g k d =>
    cases d with
    | other text =>
      refine reads_namedExport_passed hi fun hk => ?_
      rw [Item.isRecordable, hk, Bool.not_true, Bool.false_or, Bool.not_eq_true'] at hrecord
      exact hrecord
    | name h n text =>
      rw [Item.namedGroups]
      cases hk : k.isRecorded with
      | false =>
        refine reads_namedExport_passed hi fun htrue => ?_
        exact absurd (hk.symm.trans htrue) Bool.false_ne_true
      | true => exact reads_namedExport_name hi hk hrecord _
  | list gap listed source before semicolon =>
    obtain ⟨c, s, hbody, hc⟩ := Item.exists_body_list gap listed source before semicolon
    have hsign : Text.isBlank c = false ∧
        ∀ w ∈ recordedWords, w.toList.head?.any (· != c) = true := by
      rcases hc with rfl | rfl <;> decide
    refine reads_exported hled hi.1 ?_
    rw [hbody, List.append_assoc]
    refine fails_namedExport last gap (stops_cons.mpr hsign.1) ?_
    exact fun word hword => wordThenName_cons_of_ne (hsign.2 word hword) _

/-! ## Imports -/

/-- A single name is read up to the end of the specifier. -/
theorem reads_defaultImport_name {indent : Spaces} {gap before after : Gap} {n : Name}
    {s : Specifier} {ending : Ending}
    (hi : (Item.importing indent gap (.name n before after) s ending).WellFormed)
    (hs : s.text ≠ []) (r : List Char) : Shape.defaultImport.Reads Match.text last
      ("import".toList ++ (Item.importing indent gap (.name n before after) s ending).body ++
        ['\n']) r
      ("import".toList ++ (Item.importing indent gap (.name n before after) s ending).body ++
        ['\n']) [[n.chars, s.text]] := by
  have hmatch := prefers_defaultImport last gap n before after s hs (ending.chars ++ ['\n'] ++ r)
  have hread : Shape.defaultImport.Reads Match.text last
      ("import".toList ++ gap.chars ++ n.chars ++ before.chars ++ "from".toList ++
        after.chars ++ s.chars ++ (ending.chars ++ ['\n'])) r
      ("import".toList ++ gap.chars ++ n.chars ++ before.chars ++ "from".toList ++
        after.chars ++ s.chars ++ (ending.chars ++ ['\n'])) [[n.chars, s.text]] :=
    begins_defaultImport.ledBy.reads_match (by decide) hmatch (by simp) hi.1.of_suffix.1
  have hbody : "import".toList ++
      (Item.importing indent gap (.name n before after) s ending).body ++ ['\n'] =
      "import".toList ++ gap.chars ++ n.chars ++ before.chars ++ "from".toList ++
        after.chars ++ s.chars ++ (ending.chars ++ ['\n']) := by
    show "import".toList ++ (gap.chars ++ (n.chars ++ before.chars ++ "from".toList ++
      after.chars) ++ s.chars ++ ending.chars) ++ ['\n'] = _
    simp only [List.append_assoc]
  rw [hbody]
  exact hread

/-- What is recorded of an import statement, from its leading word on. -/
theorem reads_defaultImport_importing (last : Option Char) {indent : Spaces} {gap : Gap}
    {clause : Clause} {s : Specifier} {ending : Ending} {behind : List Item}
    (hi : (Item.importing indent gap clause s ending).WellFormed)
    (hrecord : (Item.importing indent gap clause s ending).isRecordable behind = true)
    (r : List Char) : Shape.defaultImport.Reads Match.text last
      ("import".toList ++ (Item.importing indent gap clause s ending).body ++ ['\n']) r
      ("import".toList ++ (Item.importing indent gap clause s ending).body ++ ['\n'])
      (Item.importing indent gap clause s ending).defaultImportGroups := by
  have hled := begins_defaultImport.ledBy
  cases clause with
  | none =>
    refine reads_imported hled hi.1 ?_
    have hbody : (Item.importing indent gap .none s ending).body =
        gap.chars ++ (s.chars ++ ending.chars) := by
      show gap.chars ++ [] ++ s.chars ++ ending.chars = _
      simp only [List.append_assoc, List.nil_append]
    have hfails := fails_defaultImport_of_none last gap s (ending.chars ++ '\n' :: r)
    rw [hbody]
    simpa only [List.append_assoc] using hfails
  | other text after =>
    refine reads_imported hled hi.1 ?_
    have hother : isOneName text.chars = false := by simpa [Item.isRecordable] using hrecord
    have hbody : (Item.importing indent gap (.other text after) s ending).body =
        gap.chars ++ (text.chars ++ "from".toList ++ after.chars) ++ s.chars ++ ending.chars :=
      rfl
    have hfails := fails_defaultImport_of_other last gap text after s hother
      (ending.chars ++ '\n' :: r)
    rw [hbody]
    simpa only [List.append_assoc] using hfails
  | name n before after =>
    have hspec : s.text ≠ [] := by
      intro hnil
      rw [Item.isRecordable, hnil] at hrecord
      cases hrecord
    exact reads_defaultImport_name hi hspec r

/-- What is recorded of the imports of an item. -/
theorem reads_defaultImport {i : Item} (hi : i.WellFormed) {behind : List Item}
    (hrecord : i.isRecordable behind = true) (r : List Char) :
    Shape.defaultImport.Reads Match.text last i.text r i.text i.defaultImportGroups := by
  have hled := begins_defaultImport.ledBy
  have hexport : Shape.defaultImport.Reads Match.text last ("export".toList ++ i.body ++ ['\n']) r
      ("export".toList ++ i.body ++ ['\n']) [] :=
    reads_exported_of_import hled hi.1 r
  cases i with
  | plain text => exact reads_plain_of_import hled hi.1 r
  | importing indent gap clause s ending =>
    -- The recorded shape begins with the word itself, so the indentation is read first.
    have hindent : Shape.defaultImport.Reads Match.text last indent.chars
        ("import".toList ++ (Item.importing indent gap clause s ending).body ++ ['\n'] ++ r)
        indent.chars [] := by
      refine begins_defaultImport.reads_text (x := 'i') (by decide) ?_
      intro h
      exact absurd (indent.indent 'i' h) (by decide)
    have hword := reads_defaultImport_importing (lastAfter last indent.chars) hi hrecord r
    have htext : (Item.importing indent gap clause s ending).text = indent.chars ++
        ("import".toList ++ (Item.importing indent gap clause s ending).body ++ ['\n']) := by
      show indent.chars ++ "import".toList ++
        (Item.importing indent gap clause s ending).body ++ ['\n'] = _
      simp only [List.append_assoc]
    rw [htext]
    exact hindent.append hword
  | defaultFunction => exact hexport
  | defaultValue => exact hexport
  | declaration => exact hexport
  | list => exact hexport

end LivePreview.Script
