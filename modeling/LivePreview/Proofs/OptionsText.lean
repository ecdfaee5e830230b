/-
  LivePreview.Proofs.OptionsText

  Options are read from every JSON object that holds them.

  The members of an object may come in any order, with any white space and in any spelling.
  The fields among them are taken one after the other (`Options.foldl_merge`), and the others
  are skipped.  So options are what they were in the fields that the object holds and as at the
  start in the others (`Options.ofJson?_spelledObject`).
-/

import LivePreview.Options.Json
import LivePreview.Proofs.JsonText

namespace LivePreview

open Json

namespace Options

variable {o x : Options} {members : List (String × List Char)} {before text after : List Char}

/-! ## The fields of options -/

/-- The names of the fields. -/
def fieldNames : List String :=
  ["rootElementId", "sharedDefaultSlot", "placeholderLiteral", "fallbackEntryMarkup",
    "runtimeScripts", "bundleScriptType", "bundlePresets", "runtimePrelude", "documentTitle",
    "handleScheme"]

/-- The fields that hold a text, with their values. -/
def texts (o : Options) : List (String × String) :=
  [("rootElementId", o.rootElementId), ("sharedDefaultSlot", o.sharedDefaultSlot),
    ("placeholderLiteral", o.placeholderLiteral), ("fallbackEntryMarkup", o.fallbackEntryMarkup),
    ("bundleScriptType", o.bundleScriptType), ("bundlePresets", o.bundlePresets),
    ("runtimePrelude", o.runtimePrelude), ("documentTitle", o.documentTitle),
    ("handleScheme", o.handleScheme)]

/-- The member is a field with the value that it has in the options. -/
def HasField (o : Options) (m : String × List Char) : Prop :=
  (∃ value, (m.1, value) ∈ o.texts ∧ StringText value m.2) ∨
    m.1 = "runtimeScripts" ∧ ArrayText o.runtimeScripts m.2

/-- The first value for a name that is among the names, and the second for any other. -/
def pick {α : Type} (names : List String) (name : String) (a b : α) : α :=
  if name ∈ names then a else b

/-- The fields of these names from the first options, and the others from the second. -/
def merge (o : Options) (names : List String) (x : Options) : Options where
  rootElementId := pick names "rootElementId" o.rootElementId x.rootElementId
  sharedDefaultSlot := pick names "sharedDefaultSlot" o.sharedDefaultSlot x.sharedDefaultSlot
  placeholderLiteral := pick names "placeholderLiteral" o.placeholderLiteral x.placeholderLiteral
  fallbackEntryMarkup :=
    pick names "fallbackEntryMarkup" o.fallbackEntryMarkup x.fallbackEntryMarkup
  runtimeScripts := pick names "runtimeScripts" o.runtimeScripts x.runtimeScripts
  bundleScriptType := pick names "bundleScriptType" o.bundleScriptType x.bundleScriptType
  bundlePresets := pick names "bundlePresets" o.bundlePresets x.bundlePresets
  runtimePrelude := pick names "runtimePrelude" o.runtimePrelude x.runtimePrelude
  documentTitle := pick names "documentTitle" o.documentTitle x.documentTitle
  handleScheme := pick names "handleScheme" o.handleScheme x.handleScheme

theorem pick_cons {α : Type} (name : String) (names : List String) (field : String) (a b : α) :
    pick (name :: names) field a b = pick names field a (pick [name] field a b) := by
  simp only [pick, List.mem_cons, List.not_mem_nil, or_false]
  split_ifs <;> simp_all

theorem merge_cons (o : Options) (name : String) (names : List String) (x : Options) :
    o.merge (name :: names) x = o.merge names (o.merge [name] x) := by
  rw [merge, merge, merge]
  congr 1 <;> exact pick_cons ..

/-- Taking the fields one after the other takes them all. -/
theorem foldl_merge (o : Options) (members : List (String × List Char)) (x : Options) :
    members.foldl (fun x m => o.merge [m.1] x) x = o.merge (members.map Prod.fst) x := by
  induction members generalizing x with
  | nil => rfl
  | cons m members ih => rw [List.foldl_cons, ih, List.map_cons, ← merge_cons]

theorem merge_of_forall_mem {names : List String} (h : ∀ name ∈ fieldNames, name ∈ names)
    (x : Options) : o.merge names x = o := by
  simp only [fieldNames, List.forall_mem_cons] at h
  simp only [merge, pick, h, if_true]

theorem merge_of_not_mem {name : String} (h : name ∉ fieldNames) : o.merge [name] = id := by
  have hne : ∀ field ∈ fieldNames, field ≠ name := fun field hfield heq => h (heq ▸ hfield)
  simp only [fieldNames, List.forall_mem_cons] at hne
  funext x
  simp only [merge, pick, List.mem_singleton, hne, if_false, id]

/-! ## Options are read -/

theorem sets_text {name value : String} {text : List Char} {set : String → Options → Options}
    (hfind : record.fields.find? (·.name == name) = some (.text name false set))
    (hset : o.merge [name] = set value) (h : StringText value text) :
    record.Sets (name, text) (o.merge [name]) :=
  hset ▸ .string name false set hfind h

/-- A member that is a field sets it to its value in the options. -/
theorem HasField.sets {m : String × List Char} (h : o.HasField m) :
    record.Sets m (o.merge [m.1]) := by
  obtain ⟨name, text⟩ := m
  rcases h with ⟨value, hmem, htext⟩ | ⟨rfl, harray⟩
  · simp only [texts, List.mem_cons, Prod.mk.injEq, List.not_mem_nil, or_false] at hmem
    rcases hmem with ⟨rfl, rfl⟩ | ⟨rfl, rfl⟩ | ⟨rfl, rfl⟩ | ⟨rfl, rfl⟩ | ⟨rfl, rfl⟩ | ⟨rfl, rfl⟩ |
      ⟨rfl, rfl⟩ | ⟨rfl, rfl⟩ | ⟨rfl, rfl⟩
    all_goals exact sets_text rfl rfl htext
  · have hread := (reads_arrayText harray).map fun value (x : Options) =>
      { x with runtimeScripts := value }
    exact ⟨scriptsField, rfl, hread⟩

theorem knows_iff {name : String} : record.knows name = true ↔ name ∈ fieldNames := by
  have hnames : record.fields.map (·.name) = fieldNames := rfl
  rw [Record.knows, List.isSome_find?, List.any_eq_true, ← hnames, List.mem_map]
  simp only [beq_iff_eq]

/-- No field has to be there. -/
theorem missing?_eq_none (seen : List String) : record.missing? seen = none := by
  have hoptional : ∀ field ∈ record.fields, field.required = false := by decide
  rw [Record.missing?, Option.map_eq_none_iff, List.find?_eq_none]
  intro field hfield
  simp [hoptional field hfield]

/-- The members of a JSON object that are fields, in any order and each once, set these fields;
    the other fields stay as they are at the start, and other members may have any values, also
    if they are repeated.  White space may stand anywhere, and strings may be spelled in any
    way.  An object with all fields gives all of the options. -/
theorem ofJson?_spelledObject (hobject : SpelledObject members text)
    (hmembers : ∀ m ∈ members, o.HasField m ∨ m.1 ∉ fieldNames ∧ PartText .value m.2)
    (hnodup : ((members.map Prod.fst).filter (· ∈ fieldNames)).Nodup)
    (hbefore : IsSpaces before) (hafter : IsSpaces after) :
    ofJson? (String.ofList (before ++ (text ++ after))) =
        .ok (o.merge (members.map Prod.fst) {}) ∧
      ((∀ name ∈ fieldNames, name ∈ members.map Prod.fst) →
        ofJson? (String.ofList (before ++ (text ++ after))) = .ok o) := by
  have hpasses : List.Forall₂ record.Passes members (members.map fun m => o.merge [m.1]) := by
    rw [List.forall₂_map_right_iff, List.forall₂_same]
    intro m hm
    rcases hmembers m hm with hfield | ⟨hunknown, hvalue⟩
    · exact .inl hfield.sets
    · refine .inr ⟨?_, hvalue, merge_of_not_mem hunknown⟩
      rw [← Bool.not_eq_true, knows_iff]
      exact hunknown
  have hknown : (members.map Prod.fst).filter record.knows =
      (members.map Prod.fst).filter (· ∈ fieldNames) :=
    List.filter_congr fun name _ => by rw [Bool.eq_iff_iff, knows_iff, decide_eq_true_iff]
  have hread := reads_spelledObject hobject _ hpasses (hknown ▸ hnodup) (missing?_eq_none _)
    before after hbefore
  rw [List.foldl_map, foldl_merge] at hread
  have hend : skipSpace after = [] := by
    rw [← List.append_nil after, skipSpace_spaces hafter]
    rfl
  have hall : ofJson? (String.ofList (before ++ (text ++ after))) =
      .ok (o.merge (members.map Prod.fst) {}) := by
    simp only [ofJson?, parse, String.toList_ofList, hread, hend]
    rfl
  refine ⟨hall, fun h => ?_⟩
  rw [hall, merge_of_forall_mem h]

/-- An array with a number and an object in it. -/
def nestedChars : List Char := "[-1.5,\x7b\"a\" :null\x7d]".toList

theorem partText_nestedChars : PartText .value nestedChars := by
  have hspace : IsSpaces [' '] := by simp [IsSpaces, isSpace]
  have hone : WholeText ['1'] := .digits ⟨by simp, by simp⟩ (by decide)
  have hfive : FractionText ['.', '5'] := .point ⟨by simp, by simp⟩
  have hnumber := NumeralText.mk hone hfive .nil
  have hkey : InnerText ['a'] := .plain (by decide) .nil
  have hnull : PartText .value ['n', 'u', 'l', 'l'] := .word (by decide)
  have hobject := PartText.object
    (.lastMember isSpaces_nil hkey hspace isSpaces_nil hnull isSpaces_nil)
  exact .array (.nextItem isSpaces_nil (.negative hnumber) isSpaces_nil
    (.lastItem isSpaces_nil hobject isSpaces_nil))

/-- A character beyond the codes of four digits, written by a pair of codes. -/
def pairChars : List Char := "\"\\uD83d\\ude00\"".toList

theorem stringText_pairChars : StringText "😀" pairChars := by
  have hfirst : IsHex4 ['D', '8', '3', 'd'] (0xd800 + 0x3d) :=
    .mk (x := 13) (y := 8) (z := 3) (w := 13) ⟨by decide, .inr rfl⟩ ⟨by decide, .inl rfl⟩
      ⟨by decide, .inl rfl⟩ ⟨by decide, .inl rfl⟩
  have hsecond : IsHex4 ['d', 'e', '0', '0'] (0xdc00 + 0x200) :=
    .mk (x := 13) (y := 14) (z := 0) (w := 0) ⟨by decide, .inl rfl⟩ ⟨by decide, .inl rfl⟩
      ⟨by decide, .inl rfl⟩ ⟨by decide, .inl rfl⟩
  exact ⟨_, .cons (.pair (by decide) (by decide) (by decide) hfirst hsecond) .nil, rfl⟩

/-- The title is set, with its key and its value in escapes, and a member that is no field is
    skipped twice. -/
theorem ofJson?_spelledObject_escapes :
    ofJson? ("\n\x7b\"x\":[-1.5,\x7b\"a\" :null\x7d]," ++
        "\"\\u0064ocumentTitle\": \"\\uD83d\\ude00\",\"x\":null\x7d") =
      .ok { documentTitle := "😀" } := by
  have hspace : IsSpaces [' '] := by simp [IsSpaces, isSpace]
  have hline : IsSpaces ['\n'] := by simp [IsSpaces, isSpace]
  have hx : StringText "x" ['"', 'x', '"'] := ⟨['x'], spellsChars_plain (by decide), rfl⟩
  have hd : IsHex4 ['0', '0', '6', '4'] 'd'.toNat :=
    .mk (x := 0) (y := 0) (z := 6) (w := 4) ⟨by decide, .inl rfl⟩ ⟨by decide, .inl rfl⟩
      ⟨by decide, .inl rfl⟩ ⟨by decide, .inl rfl⟩
  have htitle : SpellsChars "documentTitle".toList
      ('\\' :: 'u' :: ['0', '0', '6', '4'] ++ "ocumentTitle".toList) := by
    have hkey : "documentTitle".toList = 'd' :: "ocumentTitle".toList := by decide
    rw [hkey]
    exact .cons (.code hd) (spellsChars_plain (by decide))
  have hnull : PartText .value ['n', 'u', 'l', 'l'] := .word (by decide)
  have hobject : SpelledObject
      [("x", nestedChars), ("documentTitle", pairChars), ("x", ['n', 'u', 'l', 'l'])] _ :=
    ⟨_, .first ⟨[], _, [], [], isSpaces_nil, hx, isSpaces_nil, isSpaces_nil, rfl⟩
      (.next isSpaces_nil
        ⟨[], _, [], [' '], isSpaces_nil, ⟨_, htitle, rfl⟩, isSpaces_nil, hspace, rfl⟩
        (.next isSpaces_nil ⟨[], _, [], [], isSpaces_nil, hx, isSpaces_nil, isSpaces_nil, rfl⟩
          (.close isSpaces_nil))), rfl⟩
  have hread := ofJson?_spelledObject (o := { documentTitle := "😀" }) hobject ?_ (by decide)
    hline isSpaces_nil
  · exact hread.1
  · simp only [List.forall_mem_cons]
    exact ⟨.inr ⟨by decide, partText_nestedChars⟩,
      .inl (.inl ⟨"😀", by decide, stringText_pairChars⟩), .inr ⟨by decide, hnull⟩, by simp⟩

end Options

end LivePreview
