/-
  LivePreview.Proofs.RecordedScript

  The record of a script lists what its items name (`ModuleRecord.recorded_textOf`), if
  no item leaves its name to the items behind it (`isRecordable`).

  Recording and stripping look for different shapes, yet they agree on default exports:
  an item that says what it names is closed for stripping as well
  (`isClosed_of_isRecordable`).
-/

import LivePreview.Proofs.Recording
import LivePreview.Proofs.StrippedScript

namespace LivePreview.Script

open Pattern

/-! ## The recorded script -/

namespace Item

/-- The name that is exported as the default, if the item names one. -/
def recordedDefault : Item → List ExportBinding
  | defaultFunction _ _ _ n _ => binding n
  | defaultValue _ _ (.name n) => binding n
  | _ => []
where
  binding (n : Name) : List ExportBinding :=
    if String.ofList n.chars ∈ nonBindingWords then []
    else [⟨defaultName, String.ofList n.chars⟩]

/-- The name that is exported with its declaration. -/
def recordedName : Item → List ExportBinding
  | declaration _ keyword (.name _ n _) =>
    if keyword.isRecorded then [⟨String.ofList n.chars, String.ofList n.chars⟩] else []
  | _ => []

/-- The name that is bound to the default of another module. -/
def recordedImport : Item → List ImportBinding
  | importing _ _ (.name n _ _) s _ => [⟨String.ofList n.chars, String.ofList s.text⟩]
  | _ => []

end Item

/-- Every item says what it names. -/
def isRecordable (items : List Item) : Bool := eachWithBehind Item.isRecordable items

/-- The record, read off the items. -/
def ModuleRecord.ofItems (path : String) (items : List Item) : ModuleRecord where
  path := path
  exports := items.flatMap Item.recordedDefault ++ items.flatMap Item.recordedName
  imports := items.flatMap Item.recordedImport

section Script

variable {items : List Item}

/-- The shapes are read item by item in the whole script. -/
theorem reads_items {p : Pattern} {gss : Item → List (List (List Char))}
    (hreads : ∀ (i : Item) (behind : List Item) (last : Option Char), i.WellFormed →
      i.isRecordable behind = true →
        p.Reads Match.text last i.text (textOf behind) i.text (gss i))
    (h : ∀ i ∈ items, i.WellFormed) (hrecord : isRecordable items = true) :
    p.Reads Match.text none (textOf items) [] (textOf items) (items.flatMap gss) := by
  refine reads_flatMap (fun i => endsLine_append_lineFeed _) ?_ atLine_none
  intro i behind hbehind last _
  exact hreads i behind last (h i (hbehind.mem List.mem_cons_self))
    (eachWithBehind_of_suffix hrecord hbehind)

theorem defaultImports_textOf (h : ∀ i ∈ items, i.WellFormed)
    (hrecord : isRecordable items = true) :
    ModuleRecord.defaultImports (textOf items) = items.flatMap Item.recordedImport := by
  have hreads := reads_items (p := Shape.defaultImport) (fun i behind last hi hr =>
    reads_defaultImport hi hr (textOf behind)) h hrecord
  have himports := hreads.map_allMatches fun gs =>
    ImportBinding.mk (String.ofList (gs.getD 0 [])) (String.ofList (gs.getD 1 []))
  refine himports.trans ?_
  rw [List.map_flatMap]
  congr 1
  funext i
  cases i with
  | importing indent gap clause s ending => cases clause <;> rfl
  | _ => rfl

theorem namedExports_textOf (h : ∀ i ∈ items, i.WellFormed)
    (hrecord : isRecordable items = true) :
    ModuleRecord.namedExports (textOf items) = items.flatMap Item.recordedName := by
  have hreads := reads_items (p := Shape.namedExport) (fun i behind last hi hr =>
    reads_namedExport hi hr) h hrecord
  have hnames := hreads.map_allMatches fun gs =>
    ExportBinding.mk (String.ofList (gs.getD 0 [])) (String.ofList (gs.getD 0 []))
  refine hnames.trans ?_
  rw [List.map_flatMap]
  congr 1
  funext i
  cases i with
  | declaration g k d =>
    cases d with
    | name h n text =>
      rw [Item.namedGroups, Item.recordedName]
      split <;> rfl
    | other text => rfl
  | _ => rfl

/-- What is recorded of the name behind a default export. -/
def defaultBinding (gs : List (List Char)) : List ExportBinding :=
  if String.ofList (gs.getD 0 []) ∈ nonBindingWords then []
  else [⟨defaultName, String.ofList (gs.getD 0 [])⟩]

theorem defaultBinding_groups {i : Item} {behind : List Item}
    (hrecord : i.isRecordable behind = true) :
    (i.defaultGroups.head?.map defaultBinding).getD [] = i.recordedDefault := by
  cases i with
  | defaultValue g₁ g₂ v =>
    cases v with
    | name n => rfl
    | other text =>
      rw [Item.isRecordable, Bool.and_eq_true, namesNoBinding, Bool.or_eq_true,
        Bool.not_eq_true'] at hrecord
      have hnone : (Item.defaultValue g₁ g₂ (.other text)).recordedDefault = [] := rfl
      rw [hnone, Item.defaultGroups]
      cases hstart : text.head?.any isIdentifierStart with
      | false => rfl
      | true =>
        have hword : String.ofList (text.takeWhile isIdentifierPart) ∈ nonBindingWords := by
          rcases hrecord.1 with hfalse | hword
          · rw [hstart] at hfalse
            cases hfalse
          · exact List.contains_iff_mem.mp hword
        exact if_pos hword
  | _ => rfl

theorem groups_of_not_isDefault {i : Item} (h : i.isDefault = false) :
    i.defaultGroups = [] ∧ i.recordedDefault = [] := by
  cases i with
  | defaultFunction => cases h
  | defaultValue => cases h
  | _ => exact ⟨rfl, rfl⟩

/-- With one default export, the first that is found is the one that is recorded. -/
theorem defaultBinding_flatMap (hrecord : isRecordable items = true)
    (hone : items.countP Item.isDefault ≤ 1) :
    ((items.flatMap Item.defaultGroups).head?.map defaultBinding).getD [] =
      items.flatMap Item.recordedDefault := by
  induction items with
  | nil => rfl
  | cons i rest ih =>
    rw [isRecordable, eachWithBehind, Bool.and_eq_true] at hrecord
    rw [List.flatMap_cons, List.flatMap_cons]
    cases hi : i.isDefault with
    -- The first default export decides; the items behind it add nothing.
    | false =>
      have hnothing := groups_of_not_isDefault hi
      rw [List.countP_cons_of_neg (by simp [hi])] at hone
      rw [hnothing.1, hnothing.2, List.nil_append, List.nil_append]
      exact ih hrecord.2 hone
    | true =>
      rw [List.countP_cons_of_pos hi] at hone
      have hrest : ∀ j ∈ rest, j.isDefault = false := by
        have hzero : rest.countP Item.isDefault = 0 := by omega
        intro j hj
        exact Bool.eq_false_iff.mpr (List.countP_eq_zero.mp hzero j hj)
      have hgroups : rest.flatMap Item.defaultGroups = [] :=
        List.flatMap_eq_nil_iff.mpr fun j hj => (groups_of_not_isDefault (hrest j hj)).1
      have hbindings : rest.flatMap Item.recordedDefault = [] :=
        List.flatMap_eq_nil_iff.mpr fun j hj => (groups_of_not_isDefault (hrest j hj)).2
      rw [hgroups, hbindings, List.append_nil, List.append_nil]
      exact defaultBinding_groups hrecord.1

theorem defaultExports_textOf (h : ∀ i ∈ items, i.WellFormed)
    (hrecord : isRecordable items = true) (hone : items.countP Item.isDefault ≤ 1) :
    ModuleRecord.defaultExports (textOf items) = items.flatMap Item.recordedDefault := by
  have hreads := reads_items (p := Shape.defaultExport) (fun i behind last hi hr =>
    reads_defaultExport hi hr) h hrecord
  have hfirst : ModuleRecord.defaultExports (textOf items) =
      (((Shape.defaultExport.allMatches (textOf items)).map Match.groups).head?.map
        defaultBinding).getD [] := by
    rw [ModuleRecord.defaultExports, first?]
    cases Shape.defaultExport.allMatches (textOf items) <;> rfl
  rw [hfirst, hreads.map_groups_allMatches]
  exact defaultBinding_flatMap hrecord hone

/-! ## Recorded scripts are stripped alike -/

/-- The first character that is not white space begins a name. -/
def leadsWithName (s : List Char) : Bool :=
  (s.dropWhile Text.isBlank).head?.any isIdentifierStart

theorem leadsWithName_line {t u v : List Char}
    (huv : leadsWithName u = true → leadsWithName v = true)
    (h : leadsWithName (t ++ '\n' :: u) = true) : leadsWithName (t ++ '\n' :: v) = true := by
  -- By induction on the line; white space is passed over, anything else decides.
  induction t with
  | nil =>
    have hline : Text.isBlank '\n' = true := by decide
    rw [leadsWithName, List.nil_append, List.dropWhile_cons_of_pos hline] at h ⊢
    exact huv h
  | cons c t ih =>
    rw [leadsWithName, List.cons_append] at h ⊢
    by_cases hc : Text.isBlank c = true
    · rw [List.dropWhile_cons_of_pos hc] at h ⊢
      exact ih h
    · rw [List.dropWhile_cons_of_neg hc] at h ⊢
      exact h

theorem leadsWithName_export (s : List Char) : leadsWithName ("export".toList ++ s) = true := by
  have hdrop : ("export".toList ++ s).dropWhile Text.isBlank = "export".toList ++ s :=
    List.dropWhile_cons_of_neg (by decide)
  rw [leadsWithName, hdrop]
  rfl

/-- The word of an import leads, whatever its indentation is. -/
theorem leadsWithName_importing (indent : Spaces) (s : List Char) :
    leadsWithName (indent.chars ++ ("import".toList ++ s)) = true := by
  have hdrop : (indent.chars ++ ("import".toList ++ s)).dropWhile Text.isBlank =
      "import".toList ++ s :=
    dropWhile_run indent.toWhite.blank (stops_cons.mpr (by decide))
  rw [leadsWithName, hdrop]
  rfl

/-- A name that leads the stripped lines leads the script, or else a leading word does. -/
theorem leadsWithName_textOf (items : List Item)
    (h : leadsWithName (items.flatMap Item.unlisted) = true) :
    leadsWithName (textOf items) = true := by
  induction items with
  | nil => exact h
  | cons i rest ih =>
    cases i with
    | plain text =>
      have hline : leadsWithName (text ++ '\n' :: rest.flatMap Item.unlisted) = true := by
        have htext : (Item.plain text :: rest).flatMap Item.unlisted =
            text ++ '\n' :: rest.flatMap Item.unlisted :=
          List.append_assoc text ['\n'] _
        rwa [htext] at h
      have hsame : textOf (Item.plain text :: rest) = text ++ '\n' :: textOf rest :=
        List.append_assoc text ['\n'] _
      rw [hsame]
      exact leadsWithName_line ih hline
    | importing indent gap clause s ending =>
      -- The import is gone from the stripped lines, but its word leads the script.
      have htext : textOf (Item.importing indent gap clause s ending :: rest) = indent.chars ++
          ("import".toList ++ ((Item.importing indent gap clause s ending).body ++
            '\n' :: textOf rest)) := by
        show indent.chars ++ "import".toList ++ (Item.importing indent gap clause s ending).body ++
          ['\n'] ++ textOf rest = _
        simp only [List.append_assoc, List.singleton_append]
      rw [htext]
      exact leadsWithName_importing indent _
    | defaultFunction => exact leadsWithName_export _
    | defaultValue => exact leadsWithName_export _
    | declaration => exact leadsWithName_export _
    | list => exact leadsWithName_export _

theorem wordThenName_line {word : String} (hword : '\n' ∉ word.toList) {t u v : List Char}
    (huv : leadsWithName u = true → leadsWithName v = true)
    (h : wordThenName word (t ++ '\n' :: u) = true) :
    wordThenName word (t ++ '\n' :: v) = true := by
  rw [wordThenName, Bool.and_eq_true, List.isPrefixOf_iff_prefix] at h
  have hbegins : word.toList <+: t := prefix_of_prefix_append_cons h.1 hword
  have hname := h.2
  rw [List.drop_append_of_le_length hbegins.length_le, nameFollows, Bool.and_eq_true] at hname
  -- The white space behind the word begins before the line feed or is the line feed.
  have hhead : ∀ s : List Char, ∀ w, (s ++ '\n' :: w).head? = (s ++ ['\n']).head? := by
    intro s w
    cases s <;> rfl
  rw [hhead] at hname
  rw [wordThenName, Bool.and_eq_true, List.isPrefixOf_iff_prefix,
    List.drop_append_of_le_length hbegins.length_le, nameFollows, Bool.and_eq_true, hhead]
  exact ⟨hbegins.trans (List.prefix_append t _), hname.1, leadsWithName_line huv hname.2⟩

/-- An item that says what it names is closed for stripping, too. -/
theorem Item.isClosedValue_of_isRecordable {i : Item} {behind : List Item}
    (hrecord : i.isRecordable behind = true) : i.isClosedValue behind = true := by
  cases i with
  | defaultValue g₁ g₂ v =>
    rw [Item.isClosedValue, Bool.not_eq_true']
    cases v with
    | name n =>
      -- A semicolon stands behind the name.
      have htext : (Value.name n).chars ++ '\n' :: behind.flatMap Item.unlisted =
          n.chars ++ ';' :: ('\n' :: behind.flatMap Item.unlisted) :=
        List.append_assoc n.chars [';'] _
      rw [htext]
      exact wordThenName_of_semicolon (by decide) n _
    | other text =>
      -- A name behind the stripped items is one behind the items as they are.
      rw [Item.isRecordable, Bool.and_eq_true, Bool.not_eq_true'] at hrecord
      by_contra hopen
      rw [Bool.not_eq_false] at hopen
      have hname := wordThenName_line (by decide) (leadsWithName_textOf behind) hopen
      exact Bool.false_ne_true (hrecord.2.symm.trans hname)
  | _ => rfl

theorem isClosed_of_isRecordable (hlist : ∀ i ∈ items, i.isList = false)
    (hrecord : isRecordable items = true) : isClosed items = true := by
  induction items with
  | nil => rfl
  | cons i rest ih =>
    rw [isRecordable, eachWithBehind, Bool.and_eq_true] at hrecord
    have hrest := ih (fun j hj => hlist j (List.mem_cons_of_mem i hj)) hrecord.2
    have hclosed : i.isClosedList rest = true := by
      have hi := hlist i List.mem_cons_self
      cases i with
      | list => cases hi
      | _ => rfl
    rw [isClosed, eachWithBehind, Item.isClosed, hclosed,
      Item.isClosedValue_of_isRecordable hrecord.1]
    exact hrest

/-- The shared slot is assigned exactly by scripts with a default export. -/
theorem writesSharedSlot_textOf (path slot : String) (h : ∀ i ∈ items, i.WellFormed)
    (hlist : ∀ i ∈ items, i.isList = false) (hrecord : isRecordable items = true) :
    (StrippedModule.ofSource path (String.ofList (textOf items)) slot).writesSharedSlot =
      items.any Item.isDefault := by
  have hclosed := isClosed_of_isRecordable hlist hrecord
  have hlists : StrippedModule.withoutLists (textOf items) = items.flatMap Item.unlisted := by
    refine withoutLists_textOf h ?_ hclosed
    intro i behind hbehind hi
    rw [hlist i (hbehind.mem List.mem_cons_self)] at hi
    cases hi
  have hdeclared : StrippedModule.withPlainFunctions (items.flatMap Item.unlisted) =
      items.flatMap Item.declared :=
    (reads_items_defaultFunction h hclosed).replace_eq
  rw [StrippedModule.ofSource, String.toList_ofList, hlists, hdeclared,
    defaultFunctions_unlisted h hclosed, List.isEmpty_map, occursIn_defaultExpression h]
  exact isDefault_eq items

/-- The record lists the name of the default export if it is the name of a binding, then
    the names of the exported functions and variables, and the imports of a single name;
    and the stripped script assigns the shared slot exactly if there is a default export. -/
theorem ModuleRecord.recorded_textOf (path slot : String) (items : List Item)
    (h : ∀ i ∈ items, i.WellFormed) (hlist : ∀ i ∈ items, i.isList = false)
    (hone : items.countP Item.isDefault ≤ 1) (hrecord : isRecordable items = true) :
    ofSource path (String.ofList (textOf items)) = ofItems path items ∧
      (StrippedModule.ofSource path (String.ofList (textOf items)) slot).writesSharedSlot =
        items.any Item.isDefault := by
  refine ⟨?_, writesSharedSlot_textOf path slot h hlist hrecord⟩
  rw [ofSource, ofItems, String.toList_ofList, defaultExports_textOf h hrecord hone,
    namedExports_textOf h hrecord, defaultImports_textOf h hrecord]

end Script

def useStateClause : ClauseText :=
  ⟨"\x7b useState \x7d ".toList, by decide, List.all_eq_true.mp (by decide)⟩

/-- A script that names what it exports and imports. -/
def pageScript : List Item :=
  [.importing .empty .space (.name ⟨"React".toList, Eq.refl true⟩ .space .space)
      reactSpecifier ⟨.empty, some .empty⟩,
    .importing .empty .space (.other useStateClause Gap.space.toWhite) reactSpecifier
      ⟨.empty, some .empty⟩,
    .declaration .space .constWord (.name .space ⟨"title".toList, by decide⟩ " = 1;".toList),
    .declaration .space .letWord (.other " [a, b] = title;".toList),
    .declaration .space .classWord (.name .space ⟨"Panel".toList, by decide⟩
      " \x7b\x7d".toList),
    .defaultValue .space .space (.other "function () \x7b\x7d".toList)]

theorem ModuleRecord.recorded_textOf_pageScript :
    (∀ i ∈ pageScript, i.WellFormed) ∧ (∀ i ∈ pageScript, i.isList = false) ∧
      pageScript.countP Item.isDefault ≤ 1 ∧ isRecordable pageScript = true ∧
      ofSource "Page.js" (String.ofList (textOf pageScript)) = ofItems "Page.js" pageScript ∧
      (StrippedModule.ofSource "Page.js" (String.ofList (textOf pageScript))
        "__default").writesSharedSlot = pageScript.any Item.isDefault := by
  have hitems : ∀ i ∈ pageScript, i.WellFormed := by decide
  have hlist : ∀ i ∈ pageScript, i.isList = false := by decide
  have hone : pageScript.countP Item.isDefault ≤ 1 := by decide
  have hrecord : isRecordable pageScript = true := by decide
  exact ⟨hitems, hlist, hone, hrecord,
    recorded_textOf "Page.js" "__default" pageScript hitems hlist hone hrecord⟩

/-- A variable that the next line names. -/
def openLet : List Item :=
  [.declaration .space .letWord (.other []), .plain "a".toList]

/-- Items that the next line names are not recorded by themselves. -/
theorem ModuleRecord.not_recorded_textOf_of_open :
    (∀ i ∈ openFunction ++ openLet, i.WellFormed ∧ i.isList = false ∧ i.isRecordable [] = true) ∧
      (openFunction ++ openLet).countP Item.isDefault ≤ 1 ∧
      ofSource "a.js" (String.ofList (textOf openFunction)) ≠ ofItems "a.js" openFunction ∧
      ofSource "a.js" (String.ofList (textOf openLet)) ≠ ofItems "a.js" openLet := by
  refine ⟨by decide, by decide, ?_, ?_⟩ <;> decide

end LivePreview.Script
