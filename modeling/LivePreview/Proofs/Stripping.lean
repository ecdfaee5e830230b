/-
  LivePreview.Proofs.Stripping

  What stripping makes of a script, item by item.

  Each of the five passes is read item by item: it rewrites the items of its own kind and
  leaves the others (`reads_importStatement`, `reads_exportList`, `reads_defaultFunction`,
  `reads_defaultExpression`, `reads_exportedDeclaration`).  What one pass writes holds no
  match for the passes behind it, since neither leading word stands in the body of an
  item; a slot that ends in `export` is followed by an equals sign.
-/

import LivePreview.Proofs.ExportLists

namespace LivePreview.Script

open Pattern

variable {last : Option Char}

/-! ## Items after each pass -/

namespace Item

/-- The item with default functions declared plainly. -/
def declared : Item → List Char
  | defaultFunction _ _ _ n text => "function ".toList ++ n.chars ++ text ++ ['\n']
  | i => i.unlisted

/-- The item with default values assigned to the slot. -/
def assigned (slot : List Char) : Item → List Char
  | defaultValue _ _ value => slot ++ " = ".toList ++ value.chars ++ ['\n']
  | i => i.declared

/-- The item without its module syntax. -/
def stripped (slot : List Char) : Item → List Char
  | plain text => text ++ ['\n']
  | importing .. => []
  | defaultFunction _ _ _ n text => "function ".toList ++ n.chars ++ text ++ ['\n']
  | defaultValue _ _ value => slot ++ " = ".toList ++ value.chars ++ ['\n']
  | declaration _ keyword declared => keyword.chars ++ declared.chars ++ ['\n']
  | list .. => ['\n']

/-- What stands behind the script for the item: a default function is assigned to the
    slot there. -/
def hoisted (slot : List Char) : Item → List Char
  | defaultFunction _ _ _ n _ => '\n' :: (slot ++ " = ".toList ++ n.chars ++ [';'])
  | _ => []

theorem endsLine_unlisted (i : Item) : EndsLine i.unlisted := by
  cases i with
  | importing => exact endsLine_nil
  | list => exact endsLine_append_lineFeed []
  | _ => exact endsLine_append_lineFeed _

theorem endsLine_declared (i : Item) : EndsLine i.declared := by
  cases i with
  | importing => exact endsLine_nil
  | list => exact endsLine_append_lineFeed []
  | _ => exact endsLine_append_lineFeed _

theorem endsLine_assigned (slot : List Char) (i : Item) : EndsLine (i.assigned slot) := by
  cases i with
  | importing => exact endsLine_nil
  | list => exact endsLine_append_lineFeed []
  | _ => exact endsLine_append_lineFeed _

/-- A default function keeps its name. -/
def functionGroups : Item → List (List (List Char))
  | defaultFunction _ _ _ n _ => [[n.chars]]
  | _ => []

/-- A default value keeps no groups. -/
def valueGroups : Item → List (List (List Char))
  | defaultValue .. => [[]]
  | _ => []

/-- A declaration keeps the words that begin it. -/
def keywordGroups : Item → List (List (List Char))
  | declaration _ keyword _ => [[keyword.chars]]
  | _ => []

/-- A default value is not a function that the items behind it name. -/
def isClosedValue (behind : List Item) : Item → Bool
  | defaultValue _ _ value =>
    !wordThenName "function" (value.chars ++ '\n' :: behind.flatMap unlisted)
  | _ => true

/-- The item is not carried on by what stands behind it. -/
def isClosed (behind : List Item) (i : Item) : Bool :=
  i.isClosedList behind && i.isClosedValue behind

end Item

/-- No item is carried on by the items behind it. -/
def isClosed (items : List Item) : Bool := eachWithBehind Item.isClosed items

/-! ## Default exports -/

/-- What begins with another letter than `default` is no default export. -/
theorem fails_defaultExpression (w : White) {c : Char} (hc : Text.isBlank c = false)
    (hne : c ≠ 'd') (s : List Char) :
    Shape.defaultExpression.Fails last ("export".toList ++ (w.chars ++ c :: s)) := by
  rw [fails_iff]
  intro t r gs heq htakes
  obtain ⟨g₁, g₂, rfl, -⟩ := takes_defaultExpression.mp htakes
  simp only [List.append_assoc] at heq
  -- Behind the white space `c` would be the first letter of `default`.
  obtain ⟨-, hrest⟩ := run_unique (List.append_cancel_left heq) w.blank g₁.blank
    (stops_cons.mpr hc) (stops_cons.mpr (by decide))
  exact hne (List.cons.inj hrest).1

theorem fails_defaultExpression_of_keyword (g : Gap) (k : Keyword) (s : List Char) :
    Shape.defaultExpression.Fails last ("export".toList ++ (g.chars ++ (k.chars ++ s))) := by
  obtain ⟨c, cs, hk, hc, hne⟩ := k.exists_cons
  have hblank := isBlank_of_isIdentifierPart (isIdentifierPart_of_start hc)
  rw [hk]
  exact fails_defaultExpression g.toWhite hblank hne _

/-- What a default export exports can be told from the text. -/
theorem defaultExpression_unique {g₁ g₂ k₁ k₂ : Gap} {s s' : List Char}
    (h : "export".toList ++ (g₁.chars ++ ("default".toList ++ (g₂.chars ++ s))) =
      "export".toList ++ (k₁.chars ++ ("default".toList ++ (k₂.chars ++ s'))))
    (hs : Stops Text.isBlank s) (hs' : Stops Text.isBlank s') : s = s' := by
  obtain ⟨-, hdefault⟩ := run_unique (List.append_cancel_left h) g₁.blank k₁.blank
    (stops_cons.mpr (by decide)) (stops_cons.mpr (by decide))
  exact (run_unique (List.append_cancel_left hdefault) g₂.blank k₂.blank hs hs').2

/-- A default value that is no named function is no default function. -/
theorem fails_defaultFunction_of_value (g₁ g₂ : Gap) {s : List Char}
    (hs : Stops Text.isBlank s) (h : wordThenName "function" s = false) :
    Shape.defaultFunction.Fails last
      ("export".toList ++ (g₁.chars ++ ("default".toList ++ (g₂.chars ++ s)))) := by
  rw [fails_iff]
  intro t r gs heq htakes
  obtain ⟨k₁, k₂, k₃, n, rfl, -⟩ := takes_defaultFunction.mp htakes
  obtain ⟨c, cs, hn, hc, -⟩ := n.exists_cons
  simp only [hn, List.append_assoc, List.cons_append] at heq
  -- The gaps are the same on both sides, so the value begins with the named function.
  have hfunction := defaultExpression_unique heq hs (stops_cons.mpr (by decide))
  rw [wordThenName_of_eq k₃ hfunction hc] at h
  cases h

theorem prefers_defaultExpression (last : Option Char) (g₁ g₂ : Gap) {r : List Char}
    (hr : Stops Text.isBlank r) : Shape.defaultExpression.Prefers last
      ("export".toList ++ g₁.chars ++ "default".toList ++ g₂.chars) r [] := by
  have hdefault : Stops Text.isBlank ("default".toList ++ (g₂.chars ++ r)) :=
    stops_cons.mpr (by decide)
  exact (((prefers_literal "export" _ _).seq (prefers_blanks1 g₁ hdefault)).seq
    (prefers_literal "default" _ _)).seq (prefers_blanks1 g₂ hr)

theorem prefers_defaultFunction (last : Option Char) (g₁ g₂ g₃ : Gap) (n : Name) {r : List Char}
    (hr : endsName r = true) : Shape.defaultFunction.Prefers last
      ("export".toList ++ g₁.chars ++ "default".toList ++ g₂.chars ++ "function".toList ++
        g₃.chars ++ n.chars) r [n.chars] := by
  have hname : Stops Text.isBlank (n.chars ++ r) := n.stops_isBlank r
  have hdefault := prefers_defaultExpression last g₁ g₂
    (r := "function".toList ++ (g₃.chars ++ (n.chars ++ r))) (stops_cons.mpr (by decide))
  exact ((hdefault.seq (prefers_literal "function" _ _)).seq (prefers_blanks1 g₃ hname)).seq
    (prefers_identifier n (stops_isIdentifierPart hr)).group

/-! ## Exported declarations -/

/-- The words that begin a declaration. -/
def declarationWords : Pattern :=
  Shape.optionalAsync ++ literal "function" ||| oneOf ["const", "let", "var", "class"]

theorem exists_keyword_of_takes {t r : List Char} {gs : List (List Char)}
    (h : declarationWords.Takes last t r gs) : ∃ k : Keyword, t = k.chars := by
  rcases h with h | h
  · obtain ⟨u, rfl, hasync⟩ := takes_seq_literal.mp h
    rcases hasync with hasync | ⟨rfl, -⟩
    · obtain ⟨_, g, rfl, hword⟩ := takes_seq_blanks1.mp hasync
      obtain ⟨rfl, -⟩ := takes_literal.mp hword
      exact ⟨.asyncFunction g, rfl⟩
    · exact ⟨.function, rfl⟩
  · obtain ⟨⟨s, hs, rfl⟩, -⟩ := takes_oneOf.mp h
    simp only [List.mem_cons, List.not_mem_nil, or_false] at hs
    rcases hs with rfl | rfl | rfl | rfl
    · exact ⟨.constWord, rfl⟩
    · exact ⟨.letWord, rfl⟩
    · exact ⟨.varWord, rfl⟩
    · exact ⟨.classWord, rfl⟩

theorem exists_keyword_of_takes_exportedDeclaration {t r : List Char} {gs : List (List Char)}
    (h : Shape.exportedDeclaration.Takes last t r gs) :
    ∃ g : Gap, ∃ k : Keyword, t = "export".toList ++ g.chars ++ k.chars ∧
      gs.head? = some k.chars := by
  obtain ⟨_, _, _, _, rfl, rfl, ⟨_, _, _, _, rfl, rfl, hgap, ⟨_, rfl, hwords⟩⟩, ⟨rfl, rfl, -⟩⟩ := h
  obtain ⟨_, g, rfl, hword⟩ := takes_seq_blanks1.mp hgap
  obtain ⟨rfl, rfl⟩ := takes_literal.mp hword
  obtain ⟨k, rfl⟩ := exists_keyword_of_takes hwords
  exact ⟨g, k, List.append_nil _, rfl⟩

theorem prefers_declarationWords (k : Keyword) (last : Option Char) (r : List Char) :
    declarationWords.Prefers last k.chars r [] := by
  have hasync : ∀ (c : Char) (s : List Char), "async".toList.head?.any (· != c) = true →
      Shape.optionalAsync.Prefers last [] (c :: s) [] :=
    fun c s hc => prefers_optional_nothing ((fails_literal hc last s).seq _)
  have hother : ∀ (s : String), s ∈ ["const", "let", "var", "class"] →
      declarationWords.Prefers last s.toList r [] := by
    intro s hs
    have hfree : PrefixFree ["const", "let", "var", "class"] := by decide
    -- Neither `async` nor `function` stands there.
    refine .either_right ?_ (prefers_oneOf hfree hs last r)
    rw [fails_iff]
    intro t r' gs heq htakes
    obtain ⟨u, rfl, hasync⟩ := takes_seq_literal.mp htakes
    simp only [List.mem_cons, List.not_mem_nil, or_false] at hs
    rcases hasync with hasync | ⟨rfl, -⟩
    · obtain ⟨_, g, rfl, hword⟩ := takes_seq_blanks1.mp hasync
      obtain ⟨rfl, -⟩ := takes_literal.mp hword
      rcases hs with rfl | rfl | rfl | rfl <;> simp at heq
    · rcases hs with rfl | rfl | rfl | rfl <;> simp at heq
  cases k with
  | function =>
    -- `async` is looked for and given up.
    have hnone : Shape.optionalAsync.Prefers last [] ("function".toList ++ r) [] :=
      hasync 'f' ("unction".toList ++ r) (by decide)
    exact (hnone.seq (prefers_literal "function" last r)).either_left
  | asyncFunction gap =>
    have hgap : Stops Text.isBlank ("function".toList ++ r) := stops_cons.mpr (by decide)
    have hword : Shape.optionalAsync.Prefers last ("async".toList ++ gap.chars)
        ("function".toList ++ r) [] :=
      ((prefers_literal "async" last _).seq (prefers_blanks1 gap hgap)).optional
    exact (hword.seq (prefers_literal "function" _ r)).either_left
  | constWord => exact hother "const" (by decide)
  | letWord => exact hother "let" (by decide)
  | varWord => exact hother "var" (by decide)
  | classWord => exact hother "class" (by decide)

/-- `export` goes from a declaration whose words end where they stand. -/
theorem prefers_exportedDeclaration (last : Option Char) (g : Gap) (k : Keyword) {r : List Char}
    (hr : r.head?.any Text.isWord = false) : Shape.exportedDeclaration.Prefers last
      ("export".toList ++ g.chars ++ k.chars) r [k.chars] := by
  have hboundary : Text.isWordBoundary (lastAfter last ("export".toList ++ g.chars ++ k.chars))
      r.head? = true := by
    obtain ⟨c, hlast, hc⟩ := k.exists_getLast?
    rw [lastAfter_append, lastAfter, hlast, Option.some_or, Text.isWordBoundary, hr,
      Option.any_some, hc]
    rfl
  have hwords := ((prefers_literal "export" last _).seq (prefers_blanks1 g (k.stops r))).seq
    (prefers_declarationWords k _ r).group
  exact hwords.seq_nothing (prefers_wordBoundary hboundary)

/-- An assignment to the slot is no declaration, whatever the slot is called. -/
theorem reads_slot {f : Match → List Char} {slot : List Char} (hslot : isIdentifier slot = true)
    (r : List Char) : Shape.exportedDeclaration.Reads f last slot (" = ".toList ++ r) slot [] := by
  apply reads_of_fails
  intro t₁ c t₂ hsplit
  rw [fails_iff]
  intro t r' gs heq htakes
  obtain ⟨g, k, rfl, -⟩ := exists_keyword_of_takes_exportedDeclaration htakes
  obtain ⟨d, ds, hk, hd, -⟩ := k.exists_cons
  have hpart : ∀ e ∈ c :: t₂, isIdentifierPart e = true := by
    intro e he
    have hall := List.all_eq_true.mp (all_isIdentifierPart_of_isIdentifier hslot)
    exact hall e (hsplit ▸ List.mem_append_right t₁ he)
  -- What is left of the slot would be the word `export`.
  rw [List.append_assoc, List.append_assoc, ← List.cons_append] at heq
  obtain ⟨-, hequals⟩ := run_unique heq hpart (List.all_eq_true.mp (by decide))
    (stops_cons.mpr (by decide)) (g.stops _)
  -- The space is the gap, so the equals sign would begin the declaration.
  rw [hk] at hequals
  have hblank := isBlank_of_isIdentifierPart (isIdentifierPart_of_start hd)
  obtain ⟨-, hsign⟩ := run_unique (w := [' ']) (s := '=' :: ' ' :: r) hequals
    (List.all_eq_true.mp (by decide)) g.blank (stops_cons.mpr (by decide)) (stops_cons.mpr hblank)
  obtain rfl : '=' = d := (List.cons.inj hsign).1
  exact absurd hd (by decide)

/-! ## The passes over one item -/

/-- A plain function stays. -/
theorem reads_function {p : Pattern} {f : Match → List Char} (hp : p.LedBy "export".toList)
    {n : Name} {text : List Char} (h : Keywordless (n.chars ++ text)) (r : List Char) :
    p.Reads f last ("function ".toList ++ n.chars ++ text ++ ['\n']) r
      ("function ".toList ++ n.chars ++ text ++ ['\n']) [] := by
  have hread : p.Reads f last ("function ".toList ++ (n.chars ++ text) ++ ['\n']) r
      ("function ".toList ++ (n.chars ++ text) ++ ['\n']) [] :=
    reads_written hp (by decide) h r
  rwa [← List.append_assoc "function ".toList] at hread

/-- A declaration stays as long as default exports are looked for. -/
theorem reads_declaration {p : Pattern} {f : Match → List Char}
    (hp : p.LedBy "export".toList)
    (hfails : ∀ (g : Gap) (k : Keyword) (s : List Char),
      p.Fails last ("export".toList ++ (g.chars ++ (k.chars ++ s))))
    {g : Gap} {k : Keyword} {d : Declared} (hi : (Item.declaration g k d).WellFormed)
    (r : List Char) : p.Reads f last (Item.declaration g k d).text r
      (Item.declaration g k d).text [] := by
  refine reads_exported hp hi.1 ?_
  rw [Item.body_declaration, List.append_assoc, List.append_assoc]
  exact hfails g k _

/-- What the third pass leaves of an item. -/
theorem reads_defaultFunction {i : Item} (hi : i.WellFormed) {behind : List Item}
    (hclosed : i.isClosedValue behind = true) : Shape.defaultFunction.Reads
      (fun m => "function ".toList ++ m.group 0) last i.unlisted (behind.flatMap Item.unlisted)
      i.declared i.functionGroups := by
  have hled := begins_defaultFunction.ledBy
  cases i with
  | plain text => exact reads_plain hled hi.1 _
  | importing => exact reads_nil last _
  | defaultFunction g₁ g₂ g₃ n text =>
    have hends : endsName (text ++ ['\n'] ++ behind.flatMap Item.unlisted) = true := by
      rw [endsName_line]
      exact hi.2
    have hread := reads_rewritten (f := fun m => "function ".toList ++ m.group 0) hled
      (prefers_defaultFunction last g₁ g₂ g₃ n hends) (by simp)
      (keywordless_name_text hi).of_suffix
    have htext : (Item.defaultFunction g₁ g₂ g₃ n text).unlisted =
        "export".toList ++ g₁.chars ++ "default".toList ++ g₂.chars ++ "function".toList ++
          g₃.chars ++ n.chars ++ (text ++ ['\n']) :=
      Item.text_defaultFunction g₁ g₂ g₃ n text
    have hdeclared : (Item.defaultFunction g₁ g₂ g₃ n text).declared =
        "function ".toList ++ n.chars ++ (text ++ ['\n']) := List.append_assoc _ _ _
    rw [htext, hdeclared]
    exact hread
  | defaultValue g₁ g₂ v =>
    refine reads_exported hled hi.1 ?_
    rw [Item.body_defaultValue, List.append_assoc, List.append_assoc, List.append_assoc]
    refine fails_defaultFunction_of_value g₁ g₂ (stops_value hi _) ?_
    rw [Item.isClosedValue, Bool.not_eq_true'] at hclosed
    exact hclosed
  | declaration g k d =>
    exact reads_declaration hled (fun g k s =>
      (((fails_defaultExpression_of_keyword g k s).seq _).seq _).seq _) hi _
  | list => exact reads_lineFeed hled _

/-- What the fourth pass leaves of an item. -/
theorem reads_defaultExpression {i : Item} (hi : i.WellFormed) (slot r : List Char) :
    Shape.defaultExpression.Reads (fun _ => slot ++ " = ".toList) last i.declared r
      (i.assigned slot) i.valueGroups := by
  have hled := begins_defaultExpression.ledBy
  cases i with
  | plain text => exact reads_plain hled hi.1 _
  | importing => exact reads_nil last _
  | defaultFunction g₁ g₂ g₃ n text => exact reads_function hled (keywordless_name_text hi) r
  | defaultValue g₁ g₂ v =>
    -- The white space before the value goes as well; the value begins with none.
    have hstop : Stops Text.isBlank (v.chars ++ ['\n'] ++ r) := by
      rw [List.append_assoc]
      exact stops_value hi _
    have hread := reads_rewritten (f := fun _ => slot ++ " = ".toList) hled
      (prefers_defaultExpression last g₁ g₂ hstop) (by simp) (keywordless_value hi)
    have htext : (Item.defaultValue g₁ g₂ v).declared =
        "export".toList ++ g₁.chars ++ "default".toList ++ g₂.chars ++ (v.chars ++ ['\n']) :=
      Item.text_defaultValue g₁ g₂ v
    have hassigned : (Item.defaultValue g₁ g₂ v).assigned slot =
        slot ++ " = ".toList ++ (v.chars ++ ['\n']) := List.append_assoc _ _ _
    rw [htext, hassigned]
    exact hread
  | declaration g k d => exact reads_declaration hled fails_defaultExpression_of_keyword hi r
  | list => exact reads_lineFeed hled _

/-- An assignment to the slot stays: the slot is read up to the equals sign, and then the
    assignment as a line behind it. -/
theorem reads_assignment {g₁ g₂ : Gap} {v : Value} (hi : (Item.defaultValue g₁ g₂ v).WellFormed)
    {slot : List Char} (hslot : isIdentifier slot = true) (r : List Char) :
    Shape.exportedDeclaration.Reads (·.group 0) last (slot ++ (" = ".toList ++ v.chars ++ ['\n'])) r
      (slot ++ (" = ".toList ++ v.chars ++ ['\n'])) [] := by
  have hline : Shape.exportedDeclaration.Reads (·.group 0) (lastAfter last slot)
      (" = ".toList ++ v.chars ++ ['\n']) r (" = ".toList ++ v.chars ++ ['\n']) [] :=
    reads_written begins_exportedDeclaration.ledBy (by decide) (keywordless_value hi) r
  have hequals : Shape.exportedDeclaration.Reads (·.group 0) last slot
      (" = ".toList ++ v.chars ++ ['\n'] ++ r) slot [] := by
    rw [List.append_assoc, List.append_assoc]
    exact reads_slot hslot _
  exact hequals.append hline

/-- A declaration loses the `export` before it. -/
theorem reads_declared {g : Gap} {k : Keyword} {d : Declared}
    (hi : (Item.declaration g k d).WellFormed) (r : List Char) :
    Shape.exportedDeclaration.Reads (·.group 0) last
      ("export".toList ++ g.chars ++ k.chars ++ (d.chars ++ ['\n'])) r
      (k.chars ++ (d.chars ++ ['\n'])) [[k.chars]] := by
  -- The word that begins the declaration ends at what is declared or at the line feed.
  have hends : (d.chars ++ ['\n'] ++ r).head?.any Text.isWord = false := by
    cases hd : d.chars with
    | nil => rfl
    | cons c cs =>
      have hshape := hi.2
      rw [Item.isShaped, hd] at hshape
      simpa using hshape
  exact reads_rewritten (f := (·.group 0)) begins_exportedDeclaration.ledBy
    (prefers_exportedDeclaration last g k hends) (by simp) (keywordless_declared hi)

/-- What the last pass leaves of an item. -/
theorem reads_exportedDeclaration {i : Item} (hi : i.WellFormed) {slot : List Char}
    (hslot : isIdentifier slot = true) (r : List Char) : Shape.exportedDeclaration.Reads
      (·.group 0) last (i.assigned slot) r (i.stripped slot) i.keywordGroups := by
  have hled := begins_exportedDeclaration.ledBy
  cases i with
  | plain text => exact reads_plain hled hi.1 _
  | importing => exact reads_nil last _
  | defaultFunction g₁ g₂ g₃ n text =>
    exact reads_function hled (keywordless_name_text hi) r
  | defaultValue g₁ g₂ v =>
    have htext : (Item.defaultValue g₁ g₂ v).assigned slot =
        slot ++ (" = ".toList ++ v.chars ++ ['\n']) := by
      show slot ++ " = ".toList ++ v.chars ++ ['\n'] = _
      simp only [List.append_assoc]
    have hstripped : (Item.defaultValue g₁ g₂ v).stripped slot =
        (Item.defaultValue g₁ g₂ v).assigned slot := rfl
    rw [hstripped, htext]
    exact reads_assignment hi hslot r
  | declaration g k d =>
    have htext : (Item.declaration g k d).assigned slot =
        "export".toList ++ g.chars ++ k.chars ++ (d.chars ++ ['\n']) :=
      Item.text_declaration g k d
    have hstripped : (Item.declaration g k d).stripped slot = k.chars ++ (d.chars ++ ['\n']) :=
      List.append_assoc _ _ _
    rw [htext, hstripped]
    exact reads_declared hi r
  | list => exact reads_lineFeed hled _

end LivePreview.Script
