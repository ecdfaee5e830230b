/-
  LivePreview.Proofs.SharedSlot

  The last module that assigns the shared slot, and the last assignment in the code.

  Nothing in a bundle but the stripped modules can bring an assignment of the slot in, if
  the slot's name is in no path and no content: names and specifiers are parts of the
  contents, and a JSON string holds the slot's name only if its text does.  So the code
  shows an assignment exactly if a module does, and the last one stands in the last module
  that is marked as a writer (`Bundle.slot_shown_in_code`).
-/

import LivePreview.Proofs.ImportCode
import LivePreview.Proofs.SlotWrites

namespace LivePreview

open Script Text

/-! ## Words in JSON strings -/

namespace Json.Quoted

/-- A character is written as it is, or behind a backslash and without an underscore. -/
theorem encodeChar_cases (c : Char) :
    encodeChar c = [c] ∨ ∃ t, encodeChar c = '\\' :: t ∧ '_' ∉ t := by
  have hcases : encodeChar c = [c] ∨
      (encodeChar c).head? = some '\\' ∧ '_' ∉ (encodeChar c).tail :=
    forall_encodeChar (P := fun c t => t = [c] ∨ t.head? = some '\\' ∧ '_' ∉ t.tail)
      (by decide) (fun _ => .inl rfl) c
  refine hcases.imp_right fun ⟨hhead, htail⟩ => ?_
  obtain ⟨t, ht⟩ := List.head?_eq_some_iff.mp hhead
  rw [ht] at htail
  exact ⟨t, ht, htail⟩

variable {w s : List Char}

theorem isPrefix_of_encoded (hw : '\\' ∉ w) (h : w <+: s.flatMap encodeChar) : w <+: s := by
  induction s generalizing w with
  | nil => exact h
  | cons c s ih =>
    cases w with
    | nil => exact List.nil_prefix
    | cons d w =>
      rw [List.mem_cons, not_or] at hw
      rw [List.flatMap_cons] at h
      rcases encodeChar_cases c with hc | ⟨t, hc, -⟩
      · rw [hc, List.singleton_append, List.cons_prefix_cons] at h
        exact List.cons_prefix_cons.mpr ⟨h.1, ih hw.2 h.2⟩
      · rw [hc, List.cons_append, List.cons_prefix_cons] at h
        exact absurd h.1.symm hw.1

/-- Escaping brings in no word that begins with an underscore. -/
theorem lacks_encoded (hw : '\\' ∉ '_' :: w) (h : Lacks ('_' :: w) s) :
    Lacks ('_' :: w) (s.flatMap encodeChar) := by
  induction s with
  | nil => exact h
  | cons c s ih =>
    have hrest := ih (h.mono (List.suffix_cons c s).isInfix)
    rcases encodeChar_cases c with hc | ⟨t, hc, ht⟩
    · intro hin
      have hfront : ¬ '_' :: w <+: (c :: s).flatMap encodeChar :=
        fun hp => h (isPrefix_of_encoded hw hp).isInfix
      -- A character that is written as it is goes on with the word as in the text.
      rw [List.flatMap_cons, hc, List.singleton_append] at hin hfront
      exact (List.infix_cons_iff.mp hin).elim hfront hrest
    · rw [List.flatMap_cons, hc]
      exact Pattern.not_infix_append (by simpa using ht) hrest

end Json.Quoted

theorem lacks_slotName_nil : Lacks slotName [] := by decide

/-- The slot's name stands in a JSON string only if it stands in the text. -/
theorem lacks_slotName_quote {s : String} (h : Lacks slotName s.toList) :
    Lacks slotName (Json.quote s).toList := by
  rw [Json.quote, String.toList_ofList]
  have hquote : Separates slotName ['"'] := by decide
  obtain ⟨w, hw⟩ : ∃ w, slotName = '_' :: w := ⟨slotName.tail, by decide⟩
  have hback : '\\' ∉ slotName := by decide
  rw [hw] at h hquote hback ⊢
  have hencoded := Json.Quoted.lacks_encoded hback h
  have hopened := hquote.1.append hencoded (.inl hquote.2.2)
  exact hopened.append hquote.1 (.inr hquote.2.1)

namespace Bundle

/-! ## The code of the imports -/

variable {project : Project} {b : Bundle}

/-- The slot's name is in no key, no path and no content. -/
def FreeOfSlot (project : Project) : Prop :=
  ∀ e ∈ project.files.entries, Lacks slotName e.1.toList ∧ Lacks slotName e.2.path.toList ∧
    Lacks slotName e.2.content.toList

theorem FreeOfSlot.script (h : FreeOfSlot project) {f : File} (hf : f ∈ project.scripts) :
    Lacks slotName f.path.toList ∧ Lacks slotName f.content.toList := by
  obtain ⟨key, hkey⟩ := exists_key_of_mem_scripts hf
  exact (h _ hkey).2

theorem FreeOfSlot.key (h : FreeOfSlot project) {key : String} (hkey : key ∈ project.paths) :
    Lacks slotName key.toList := by
  obtain ⟨e, he, rfl⟩ := List.mem_map.mp hkey
  exact (h e he).1

theorem FreeOfSlot.name (h : FreeOfSlot project) {name : String} (hname : NameOf project name) :
    Lacks slotName name.toList := by
  obtain ⟨f, hf, -, hin⟩ := hname
  exact (h.script hf).2.mono hin

theorem lacks_lineFeed {s t : List Char} (hs : Lacks slotName s) (ht : Lacks slotName t) :
    Lacks slotName (s ++ ('\n' :: t)) :=
  hs.append_cons (by decide) ht

theorem lacks_placeholderLine {name placeholder : String} (hname : Lacks slotName name.toList)
    (hplaceholder : Lacks slotName placeholder.toList) :
    Lacks slotName (placeholderLine name placeholder).toList :=
  lacks_interleave (by decide) (by decide)
    ⟨hname, hname, hname, hplaceholder, lacks_slotName_nil⟩

theorem lacks_globalLine {name global path placeholder : String}
    (hname : Lacks slotName name.toList) (hglobal : Lacks slotName global.toList)
    (hpath : Lacks slotName path.toList) (hplaceholder : Lacks slotName placeholder.toList) :
    Lacks slotName (globalLine name global path placeholder).toList := by
  have hmessage : Lacks slotName (failureMessage name path).toList :=
    lacks_interleave (by decide) (by decide) ⟨hname, hpath, lacks_slotName_nil⟩
  exact lacks_interleave (by decide) (by decide)
    ⟨hname, hglobal, lacks_slotName_quote hmessage, hplaceholder, lacks_slotName_nil⟩

/-- The name, the specifier, the importer and the target of an import. -/
theorem FreeOfSlot.parts (hfree : FreeOfSlot project) (hbuild : build {} project = .ok b)
    {i : ResolvedImport} (hi : i ∈ b.imports) :
    Lacks slotName i.binding.localName.toList ∧ Lacks slotName i.binding.specifier.toList ∧
      Lacks slotName i.importer.toList ∧
      ∀ path shadowed, i.resolution = .resolved path shadowed → Lacks slotName path.toList := by
  obtain ⟨f, hf, himporter, ⟨-, hlocal⟩, ⟨hspecifier, -⟩, hkey⟩ := mem_imports hbuild hi
  obtain ⟨hpath, hcontent⟩ := hfree.script hf
  exact ⟨hcontent.mono hlocal, hcontent.mono hspecifier, himporter ▸ hpath,
    fun path shadowed hresolved => hfree.key (hkey path shadowed hresolved)⟩

theorem lacks_commentOf (hfree : FreeOfSlot project) (hbuild : build {} project = .ok b)
    {i : ResolvedImport} (hi : i ∈ b.imports) :
    Lacks slotName (commentOf b.modules i).toList := by
  obtain ⟨hname, hspecifier, himporter, htarget⟩ := hfree.parts hbuild hi
  unfold commentOf
  dsimp only
  split
  · exact lacks_interleave (by decide) (by decide) ⟨hname, hspecifier⟩
  next path shadowed hresolved =>
  have hpath := htarget path shadowed hresolved
  split
  · have hlead : Lacks slotName
        (interleave ["// Import resolution for ", ": "] [i.importer, path]).toList :=
      lacks_interleave (by decide) (by decide) ⟨himporter, hpath⟩
    rw [String.toList_append]
    exact hlead.append (by decide) (.inr (by decide))
  split
  · exact lacks_interleave (by decide) (by decide) ⟨himporter, hname, hpath⟩
  · exact lacks_interleave (by decide) (by decide) ⟨himporter, hname, hpath⟩

theorem lacks_bindingOf (hfree : FreeOfSlot project) (hbuild : build {} project = .ok b)
    {i : ResolvedImport} (hi : i ∈ b.imports) :
    Lacks slotName (bindingOf b.modules ({} : Options).placeholderLiteral i).toList := by
  obtain ⟨hname, -, -, htarget⟩ := hfree.parts hbuild hi
  have hplaceholder : Lacks slotName ({} : Options).placeholderLiteral.toList := by decide
  have hline := lacks_placeholderLine hname hplaceholder
  unfold bindingOf
  dsimp only
  split
  · rw [String.toList_append]
    exact lacks_lineFeed hline lacks_slotName_nil
  next path shadowed hresolved =>
  split
  · rw [String.toList_append]
    exact lacks_lineFeed hline lacks_slotName_nil
  next global hglobal =>
  split
  · exact lacks_slotName_nil
  · have hdefault := hfree.name (nameOf_of_defaultExportOf? hbuild hglobal)
    rw [String.toList_append]
    exact lacks_lineFeed
      (lacks_globalLine hname hdefault (htarget path shadowed hresolved) hplaceholder)
      lacks_slotName_nil

/-- The code of an import holds the slot's name only if one of its parts does. -/
theorem lacks_importCode (hfree : FreeOfSlot project) (hbuild : build {} project = .ok b)
    {i : ResolvedImport} (hi : i ∈ b.imports) :
    Lacks slotName (importCode b.modules ({} : Options).placeholderLiteral i).toList := by
  rw [importCode_eq, String.toList_append, String.toList_append]
  exact lacks_lineFeed (lacks_commentOf hfree hbuild hi) (lacks_bindingOf hfree hbuild hi)

/-! ## The last writer -/

theorem lastWriter?_eq_none_iff {stripped : List StrippedModule} :
    lastWriter? stripped = none ↔ ∀ m ∈ stripped, m.writesSharedSlot = false := by
  simp [lastWriter?]

theorem exists_of_lastWriter? {stripped : List StrippedModule} {path : String}
    (h : lastWriter? stripped = some path) : ∃ before m after, stripped = before ++ m :: after ∧
      m.path = path ∧ m.writesSharedSlot = true ∧ ∀ n ∈ after, n.writesSharedSlot = false := by
  obtain ⟨m, hfind, rfl⟩ := Option.map_eq_some_iff.mp h
  obtain ⟨hwrites, before, after, hsplit, hafter⟩ := List.find?_eq_some_iff_append.mp hfind
  refine ⟨after.reverse, m, before.reverse, ?_, rfl, hwrites, fun n hn => ?_⟩
  · rw [List.reverse_eq_iff.mp hsplit, List.reverse_append, List.reverse_cons, List.append_assoc,
      List.singleton_append]
  · simpa using hafter n (List.mem_reverse.mp hn)

/-! ## The text of a bundle -/

/-- What stands before the text of a module. -/
def heading (path : String) : String := "\n// === " ++ path ++ " ===\n"

theorem heading_eq (path : String) :
    heading path = interleave ["\n// === ", " ===\n"] [path, ""] := by
  unfold heading
  simp only [interleave, String.append_assoc, String.append_empty]

theorem toList_titled (m : StrippedModule) :
    (titled m).toList = (heading m.path).toList ++ (m.code.toList ++ ['\n']) := by
  unfold titled heading
  rw [String.toList_append, String.toList_append, List.append_assoc]
  rfl

theorem toList_bodyOf_cons (m : StrippedModule) (stripped : List StrippedModule) :
    (bodyOf (m :: stripped)).toList = (titled m).toList ++ (bodyOf stripped).toList := by
  rw [bodyOf, List.map_cons, String.join_cons, String.toList_append]
  rfl

theorem toList_bodyOf_append (before after : List StrippedModule) :
    (bodyOf (before ++ after)).toList = (bodyOf before).toList ++ (bodyOf after).toList := by
  rw [bodyOf, List.map_append, String.join_append, String.toList_append]
  rfl

/-- The text of a module stands in the text of all of them. -/
theorem code_infix_bodyOf {stripped : List StrippedModule} {m : StrippedModule}
    (hm : m ∈ stripped) : m.code.toList <:+: (bodyOf stripped).toList := by
  obtain ⟨before, after, rfl⟩ := List.append_of_mem hm
  rw [toList_bodyOf_append, toList_bodyOf_cons, toList_titled]
  exact ⟨(bodyOf before).toList ++ (heading m.path).toList, ['\n'] ++ (bodyOf after).toList,
    by simp only [List.append_assoc]⟩

theorem toList_bodyOf (stripped : List StrippedModule) :
    (bodyOf stripped).toList = (stripped.map fun m => (titled m).toList).flatten := by
  rw [bodyOf, String.toList_join, List.flatMap_map, List.flatMap_def]

theorem lacks_slotWrite {s : List Char} (h : Lacks slotName s) : Lacks slotWrite s :=
  h.of_part (List.prefix_append _ _).isInfix

theorem lacks_heading {path : String} (h : Lacks slotName path.toList) :
    Lacks slotWrite (heading path).toList := by
  rw [heading_eq]
  exact lacks_slotWrite (lacks_interleave (by decide) (by decide) ⟨h, lacks_slotName_nil⟩)

/-- A module is set off by line feeds, and its heading shows no assignment. -/
theorem lacks_titled {m : StrippedModule} (hpath : Lacks slotName m.path.toList)
    (hcode : Lacks slotWrite m.code.toList) : Lacks slotWrite (titled m).toList ∧
      (titled m).toList.head?.any (· ∉ slotWrite) = true := by
  have hline : '\n' ∉ slotWrite := by decide
  have hend : Lacks slotWrite (m.code.toList ++ ['\n']) := hcode.append_cons hline (by decide)
  rw [toList_titled]
  constructor
  · refine (lacks_heading hpath).append hend (.inl ?_)
    unfold heading
    rw [String.toList_append, List.getLast?_append,
      (by decide : " ===\n".toList.getLast? = some '\n')]
    simpa using hline
  · unfold heading
    rw [String.toList_append, String.toList_append]
    simpa using hline

/-- The modules show no assignment behind a text that shows none, if none of them does. -/
theorem lacks_append_bodyOf {stripped : List StrippedModule} {u : List Char}
    (hu : Lacks slotWrite u) (hpath : ∀ m ∈ stripped, Lacks slotName m.path.toList)
    (hcode : ∀ m ∈ stripped, Lacks slotWrite m.code.toList) :
    Lacks slotWrite (u ++ (bodyOf stripped).toList) := by
  rw [toList_bodyOf]
  refine hu.append_flatten ?_
  intro part hpart
  obtain ⟨m, hm, rfl⟩ := List.mem_map.mp hpart
  exact lacks_titled (hpath m hm) (hcode m hm)

/-- The text before the modules: the declaration of the slot and the imports. -/
def front (b : Bundle) : List Char :=
  "var ".toList ++ slotName ++ ";\n".toList ++ b.resolutionCode.toList

theorem toList_code (hbuild : build {} project = .ok b) :
    b.code.toList = front b ++ (bodyOf b.stripped).toList := by
  obtain ⟨-, -, rfl⟩ := build_eq_ok_iff.mp hbuild
  simp only [assemble, String.toList_append]
  rfl

/-- No assignment stands before the modules. -/
theorem lacks_front (hfree : FreeOfSlot project) (hbuild : build {} project = .ok b) :
    Lacks slotWrite (front b) := by
  unfold front
  rw [toList_resolutionCode hbuild]
  have hdeclaration : Lacks slotWrite ("var ".toList ++ slotName ++ ";\n".toList) := by
    decide
  refine hdeclaration.append_flatten ?_
  intro part hpart
  obtain ⟨i, hi, rfl⟩ := List.mem_map.mp hpart
  refine ⟨lacks_slotWrite (lacks_importCode hfree hbuild hi), ?_⟩
  -- The code of an import begins with the slash of its comment.
  obtain ⟨t, ht⟩ := comment_isPrefix_commentOf b.modules i
  have hslash : '/' ∉ slotWrite := by decide
  rw [importCode_eq, String.toList_append, ← ht]
  simpa using hslash

/-- The module that is made of a file when no option is set. -/
def strippedOf (f : File) : StrippedModule :=
  .ofSource f.path f.content ({} : Options).sharedDefaultSlot

/-- The stripped file shows an assignment of the slot exactly if it is marked as a writer,
    and no default export is left in what stands before the assignments of its default
    functions. -/
structure ShowsDefaults (f : File) : Prop where
  writes : (strippedOf f).writesSharedSlot = true ↔ slotWrite <:+: (strippedOf f).code.toList
  stripped : ∃ body, (strippedOf f).code.toList = body ++
      (StrippedModule.defaultFunctions (StrippedModule.withoutLists f.content.toList)).flatMap
        (StrippedModule.slotAssignment slotName) ∧
    ∀ g₁ g₂ : Gap, Lacks (defaultWords g₁ g₂) body

theorem showsDefaults {f : File} (h : Lacks slotName f.content.toList) : ShowsDefaults f where
  writes := StrippedModule.writesSharedSlot_iff h
  stripped := ⟨_, StrippedModule.toList_code_ofSource f.path f.content,
    fun g₁ g₂ => StrippedModule.lacks_defaultWords_ownText g₁ g₂ _⟩

theorem stripped_eq (hbuild : build {} project = .ok b) :
    b.stripped = project.scripts.map strippedOf := stripped_eq_map hbuild

theorem sharedSlotWriter_eq {options : Options} (hbuild : build options project = .ok b) :
    b.hints.sharedSlotWriter = lastWriter? b.stripped := by
  rw [hints_eq hbuild, hintsOf]

/-- The stripped modules of a project without the slot's name. -/
theorem FreeOfSlot.stripped (hfree : FreeOfSlot project) (hbuild : build {} project = .ok b)
    {m : StrippedModule} (hm : m ∈ b.stripped) : Lacks slotName m.path.toList ∧
      (m.writesSharedSlot = true ↔ slotWrite <:+: m.code.toList) := by
  rw [stripped_eq hbuild] at hm
  obtain ⟨f, hf, rfl⟩ := List.mem_map.mp hm
  obtain ⟨hpath, hcontent⟩ := hfree.script hf
  exact ⟨hpath, (showsDefaults hcontent).writes⟩

/-- Modules that are not marked as writers show no assignment. -/
theorem FreeOfSlot.lacks_code (hfree : FreeOfSlot project) (hbuild : build {} project = .ok b)
    {m : StrippedModule} (hm : m ∈ b.stripped) (hwrites : m.writesSharedSlot = false) :
    Lacks slotWrite m.code.toList := by
  intro hin
  rw [(hfree.stripped hbuild hm).2.mpr hin] at hwrites
  cases hwrites

/-- The code shows no assignment exactly if no module is marked as a writer. -/
theorem lacks_code_iff (hfree : FreeOfSlot project) (hbuild : build {} project = .ok b) :
    Lacks slotWrite b.code.toList ↔ ∀ m ∈ b.stripped, m.writesSharedSlot = false := by
  rw [toList_code hbuild]
  constructor
  · intro h m hm
    by_contra hwrites
    have hin := (hfree.stripped hbuild hm).2.mp (Bool.not_eq_false _ ▸ hwrites)
    exact h ((hin.trans (code_infix_bodyOf hm)).trans (List.suffix_append _ _).isInfix)
  · intro h
    exact lacks_append_bodyOf (lacks_front hfree hbuild)
      (fun m hm => (hfree.stripped hbuild hm).1) fun m hm => hfree.lacks_code hbuild hm (h m hm)

/-- A place of a word in a text behind which there is no other. -/
def IsLastPlace (w s u v : List Char) : Prop := s = u ++ (w ++ v) ∧ Lacks w (w ++ v).tail

/-- The module is the last that is marked as a writer, and the last assignment in the code of
    the bundle is the last one in the module's text. -/
def HoldsLastWrite (b : Bundle) (m : StrippedModule) : Prop :=
  ∃ before after, b.stripped = before ++ m :: after ∧ m.writesSharedSlot = true ∧
    (∀ n ∈ after, n.writesSharedSlot = false) ∧
    ∃ u v, IsLastPlace slotWrite m.code.toList u v ∧
      IsLastPlace slotWrite b.code.toList
        (front b ++ (bodyOf before).toList ++ (heading m.path).toList ++ u)
        (v ++ '\n' :: (bodyOf after).toList)

theorem holdsLastWrite (hfree : FreeOfSlot project) (hbuild : build {} project = .ok b)
    {before after : List StrippedModule} {m : StrippedModule}
    (hsplit : b.stripped = before ++ m :: after) (hwrites : m.writesSharedSlot = true)
    (hafter : ∀ n ∈ after, n.writesSharedSlot = false) : HoldsLastWrite b m := by
  have hm : m ∈ b.stripped := by simp [hsplit]
  have hmem : ∀ n ∈ after, n ∈ b.stripped := by
    intro n hn
    simp [hsplit, hn]
  have hin := (hfree.stripped hbuild hm).2.mp hwrites
  obtain ⟨u, v, hcode, hlast⟩ := exists_last_occurrence (by decide) hin
  refine ⟨before, after, hsplit, hwrites, hafter, u, v, ⟨hcode, hlast⟩, ?_, ?_⟩
  · rw [toList_code hbuild, hsplit, toList_bodyOf_append, toList_bodyOf_cons, toList_titled, hcode]
    simp only [List.append_assoc, List.cons_append, List.nil_append]
  · -- Behind the module's last assignment its text ends in a line feed, and the modules behind
    -- it show none.
    have hne : slotWrite ++ v ≠ [] := by simp [slotWrite]
    have hend : Lacks slotWrite ((slotWrite ++ v).tail ++ ['\n']) :=
      hlast.append_cons (by decide) (by decide)
    have hbehind := lacks_append_bodyOf hend (fun n hn => (hfree.stripped hbuild (hmem n hn)).1)
      fun n hn => hfree.lacks_code hbuild (hmem n hn) (hafter n hn)
    rw [← List.append_assoc, List.tail_append_of_ne_nil hne]
    simpa only [List.append_assoc, List.singleton_append] using hbehind

/-- In a project without the slot's name, a module is marked as a writer exactly if its text
    shows an assignment, and no default export is left in what stands before the assignments
    of its default functions.  No writer is hinted at exactly if the code shows no
    assignment; else the hinted writer is the last module that is marked, and the last
    assignment in the code stands in its text. -/
theorem slot_shown_in_code (hfree : FreeOfSlot project) (hbuild : build {} project = .ok b) :
    b.stripped = project.scripts.map strippedOf ∧ (∀ f ∈ project.scripts, ShowsDefaults f) ∧
      (b.hints.sharedSlotWriter = none ↔ Lacks slotWrite b.code.toList) ∧
      ∀ path, b.hints.sharedSlotWriter = some path → ∃ m, m.path = path ∧ HoldsLastWrite b m := by
  rw [sharedSlotWriter_eq hbuild, lacks_code_iff hfree hbuild, lastWriter?_eq_none_iff]
  refine ⟨stripped_eq hbuild, fun f hf => showsDefaults (hfree.script hf).2, Iff.rfl, ?_⟩
  intro path hpath
  obtain ⟨before, m, after, hsplit, rfl, hwrites, hafter⟩ := exists_of_lastWriter? hpath
  exact ⟨m, rfl, holdsLastWrite hfree hbuild hsplit hwrites hafter⟩

/-- Two scripts with a default export each. -/
def twoWriters : Project :=
  .ofFiles [("A.js", "export default function A() \x7b return null; \x7d\n"),
    ("B.js", "import A from './A';\nexport default A;\n")]

theorem slot_shown_in_code_twoWriters : FreeOfSlot twoWriters ∧
    ∃ b, build {} twoWriters = .ok b ∧ b.hints.sharedSlotWriter = some "B.js" ∧
      ∃ m, m.path = "B.js" ∧ HoldsLastWrite b m := by
  have hfree : FreeOfSlot twoWriters := by
    unfold FreeOfSlot
    decide
  have hscripts : twoWriters.scripts ≠ [] := by decide
  have hbuild := build_eq_ok_iff.mpr ⟨Options.validate_default, hscripts, rfl⟩
  have hwriter : lastWriter? (twoWriters.scripts.map strippedOf) = some "B.js" := by
    set_option maxRecDepth 2000 in decide
  rw [← stripped_eq hbuild, ← sharedSlotWriter_eq hbuild] at hwriter
  exact ⟨hfree, _, hbuild, hwriter, (slot_shown_in_code hfree hbuild).2.2.2 _ hwriter⟩

end Bundle

end LivePreview
