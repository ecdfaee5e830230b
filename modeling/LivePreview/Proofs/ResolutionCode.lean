/-
  LivePreview.Proofs.ResolutionCode

  The lines of the code for the imports.

  Every line begins with a comment or a declaration, but for one leak: a specifier is
  anything between two quotes, line breaks included, and the comment on an import that
  leads nowhere writes it out.  The lines of such a specifier behind its first one become
  lines of the code (`Bundle.lines_resolutionCode`).

  The lines end at the characters of any class that holds the line feed and no printable
  character.
-/

import LivePreview.Proofs.ImportCode

namespace LivePreview

open Script Text

/-! ## Lines -/

namespace Text

/-- The lines of a text; the end of a line belongs to no line, and the last line may lack
    it. -/
def lines (ends : Char → Bool) : List Char → List (List Char)
  | [] => []
  | c :: s =>
    if ends c then [] :: lines ends s
    else match lines ends s with
      | [] => [[c]]
      | line :: rest => (c :: line) :: rest

variable {ends : Char → Bool} {e : Char} {u v : List Char}

theorem lines_end (he : ends e = true) (v : List Char) :
    lines ends (e :: v) = [] :: lines ends v := by
  rw [lines, if_pos he]

theorem lines_ne_nil (hu : u ≠ []) : lines ends u ≠ [] := by
  obtain ⟨c, u, rfl⟩ := List.exists_cons_of_ne_nil hu
  rw [lines]
  split
  · simp
  · split <;> simp

theorem lines_append_end (hu : ∀ c ∈ u, ends c = false) (he : ends e = true) (v : List Char) :
    lines ends (u ++ e :: v) = u :: lines ends v := by
  induction u with
  | nil => exact lines_end he v
  | cons c u ih =>
    rw [List.forall_mem_cons] at hu
    rw [List.cons_append, lines, if_neg (by simp [hu.1]), ih hu.2]

/-- Lines end where a line ends. -/
theorem lines_append (he : ends e = true) (u v : List Char) :
    lines ends (u ++ e :: v) = lines ends (u ++ [e]) ++ lines ends v := by
  induction u with
  | nil => rw [List.nil_append, List.nil_append, lines_end he, lines_end he, lines]; rfl
  | cons c u ih =>
    rw [List.cons_append, List.cons_append, lines, lines, ih]
    split
    · rfl
    · cases h : lines ends (u ++ [e]) with
      | nil => exact absurd h (lines_ne_nil (by simp))
      | cons line rest => rfl

/-- A text without an end stands at the front of the first line. -/
theorem lines_prepend (hu : ∀ c ∈ u, ends c = false) {line : List Char} {rest : List (List Char)}
    (hv : lines ends v = line :: rest) : lines ends (u ++ v) = (u ++ line) :: rest := by
  induction u with
  | nil => exact hv
  | cons c u ih =>
    rw [List.forall_mem_cons] at hu
    rw [List.cons_append, lines, if_neg (by simp [hu.1]), ih hu.2]
    rfl

/-- Texts that each end a line are read one after the other. -/
theorem lines_flatten (he : ends e = true) {parts : List (List Char)}
    (h : ∀ part ∈ parts, ∃ t, part = t ++ [e]) :
    lines ends parts.flatten = parts.flatMap (lines ends) := by
  induction parts with
  | nil => rfl
  | cons part parts ih =>
    rw [List.forall_mem_cons] at h
    obtain ⟨⟨t, rfl⟩, hrest⟩ := h
    rw [List.flatten_cons, List.flatMap_cons, List.append_assoc, List.singleton_append,
      lines_append he, ih hrest]

theorem mem_interleave {fixed fields : List String} {c : Char}
    (hc : c ∈ (interleave fixed fields).toList) :
    (∃ s ∈ fixed, c ∈ s.toList) ∨ ∃ field ∈ fields, c ∈ field.toList := by
  induction fixed, fields using interleave.induct with
  | case1 s fixed field fields ih =>
    rw [interleave, String.toList_append, String.toList_append, List.mem_append,
      List.mem_append] at hc
    rcases hc with hc | hc | hc
    · exact .inl ⟨s, List.mem_cons_self, hc⟩
    · exact .inr ⟨field, List.mem_cons_self, hc⟩
    · rcases ih hc with ⟨t, ht, hct⟩ | ⟨t, ht, hct⟩
      · exact .inl ⟨t, List.mem_cons_of_mem s ht, hct⟩
      · exact .inr ⟨t, List.mem_cons_of_mem field ht, hct⟩
  | case2 fixed fields h =>
    rw [interleave] at hc
    · cases hc
    · exact h

/-- A printable ASCII character. -/
def isPrintable (c : Char) : Bool := 32 ≤ c.toNat && c.toNat < 127

/-- Line ends are the line feed and perhaps others, but no printable character. -/
structure LineEnds (ends : Char → Bool) : Prop where
  lineFeed : ends '\n' = true
  printable : ∀ c, isPrintable c = true → ends c = false

/-- The text holds no line end. -/
def Unbroken (ends : Char → Bool) (s : String) : Prop := ∀ c ∈ s.toList, ends c = false

theorem unbroken_of_printable (hends : LineEnds ends) {s : String}
    (h : s.toList.all isPrintable = true) : Unbroken ends s :=
  fun c hc => hends.printable c (List.all_eq_true.mp h c hc)

theorem unbroken_interleave (hends : LineEnds ends) {fixed fields : List String}
    (hfixed : (fixed.all fun s => s.toList.all isPrintable) = true)
    (hfields : fields.Forall (Unbroken ends)) : Unbroken ends (interleave fixed fields) := by
  intro c hc
  rw [List.forall_iff_forall_mem] at hfields
  rcases mem_interleave hc with ⟨s, hs, hcs⟩ | ⟨field, hfield, hcf⟩
  · exact unbroken_of_printable hends (List.all_eq_true.mp hfixed s hs) c hcs
  · exact hfields field hfield c hcf

theorem Unbroken.append {s t : String} (hs : Unbroken ends s) (ht : Unbroken ends t) :
    Unbroken ends (s ++ t) := by
  intro c hc
  rw [String.toList_append, List.mem_append] at hc
  exact hc.elim (hs c) (ht c)

theorem unbroken_empty (ends : Char → Bool) : Unbroken ends "" := by
  intro c hc
  cases hc

theorem isPrintable_of_isIdentifierPart {c : Char} (h : isIdentifierPart c = true) :
    isPrintable c = true := by
  simp only [isIdentifierPart, Bool.or_eq_true, beq_iff_eq] at h
  rcases h with (h | rfl) | rfl
  · have hrange := toNat_of_isAlphanum h
    simp only [isPrintable, Bool.and_eq_true, decide_eq_true_eq]
    omega
  · decide
  · decide

theorem unbroken_of_isIdentifier (hends : LineEnds ends) {s : String}
    (h : isIdentifier s.toList = true) : Unbroken ends s := by
  refine unbroken_of_printable hends (List.all_eq_true.mpr fun c hc => ?_)
  exact isPrintable_of_isIdentifierPart
    (List.all_eq_true.mp (all_isIdentifierPart_of_isIdentifier h) c hc)

/-- A character of a JSON string is one of the text's own or printable. -/
theorem eq_or_isPrintable_of_mem_encodeChar {c d : Char} (h : d ∈ Json.Quoted.encodeChar c) :
    d = c ∨ isPrintable d = true := by
  have hall : (Json.Quoted.encodeChar c).all (fun d => d == c || isPrintable d) = true :=
    Json.Quoted.forall_encodeChar (P := fun c t => t.all (fun d => d == c || isPrintable d) = true)
      (by decide) (by simp) c
  simpa using List.all_eq_true.mp hall d h

theorem unbroken_quote (hends : LineEnds ends) {s : String} (h : Unbroken ends s) :
    Unbroken ends (Json.quote s) := by
  intro d hd
  rw [Json.quote, String.toList_ofList, Json.Quoted.encode, List.cons_append, List.mem_cons,
    List.mem_append, List.mem_singleton, List.mem_flatMap] at hd
  rcases hd with rfl | ⟨c, hc, hd⟩ | rfl
  · exact hends.printable _ (by decide)
  · rcases eq_or_isPrintable_of_mem_encodeChar hd with rfl | hprintable
    · exact h _ hc
    · exact hends.printable d hprintable
  · exact hends.printable _ (by decide)

end Text

namespace Bundle

variable {ends : Char → Bool} {options : Options} {project : Project} {b : Bundle}

/-- The lines of a specifier behind its first one. -/
def strayLines (ends : Char → Bool) (specifier : String) : List (List Char) :=
  (lines ends (specifier.toList ++ ['\n'])).tail

theorem strayLines_of_unbroken (hends : LineEnds ends) {specifier : String}
    (h : Unbroken ends specifier) : strayLines ends specifier = [] := by
  rw [strayLines, lines_append_end h hends.lineFeed]
  rfl

theorem lines_line (hends : LineEnds ends) {line : String} (h : Unbroken ends line) :
    lines ends (line ++ "\n").toList = [line.toList] := by
  rw [String.toList_append]
  exact lines_append_end h hends.lineFeed []

/-- The lines of a specifier: the first one stands in the comment, the others do not. -/
theorem lines_specifier (u : List Char) (hu : ∀ c ∈ u, ends c = false)
    (specifier : String) : ∃ line, lines ends (u ++ specifier.toList ++ ['\n']) =
      (u ++ line) :: strayLines ends specifier := by
  cases h : lines ends (specifier.toList ++ ['\n']) with
  | nil => exact absurd h (lines_ne_nil (by simp))
  | cons line rest =>
    refine ⟨line, ?_⟩
    rw [List.append_assoc, lines_prepend hu h, strayLines, h]
    rfl

theorem mem_lines_resolutionCode (hends : LineEnds ends) (hbuild : build options project = .ok b)
    {line : List Char} :
    line ∈ lines ends b.resolutionCode.toList ↔ ∃ i ∈ b.imports,
      line ∈ lines ends (importCode b.modules options.placeholderLiteral i).toList := by
  rw [toList_resolutionCode hbuild, lines_flatten hends.lineFeed, List.flatMap_map,
    List.mem_flatMap]
  intro part hpart
  obtain ⟨i, -, rfl⟩ := List.mem_map.mp hpart
  exact importCode_endsLine _ _ i

section Unbroken

variable (hends : LineEnds ends)
  (hkeys : ∀ e ∈ project.files.entries, Unbroken ends e.1 ∧ Unbroken ends e.2.path)
  (hbuild : build options project = .ok b)
include hends hkeys hbuild

/-- What holds of the parts of an import's code: everything but the specifier is unbroken. -/
theorem unbroken_parts {i : ResolvedImport} (hi : i ∈ b.imports) :
    Unbroken ends i.importer ∧ Unbroken ends i.binding.localName ∧
      (∀ path shadowed, i.resolution = .resolved path shadowed → Unbroken ends path) ∧
      ∀ path global, defaultExportOf? b.modules path = some global → Unbroken ends global := by
  obtain ⟨f, hf, himporter, ⟨hname, -⟩, -, hkey⟩ := mem_imports hbuild hi
  obtain ⟨key, hmem⟩ := exists_key_of_mem_scripts hf
  refine ⟨himporter ▸ (hkeys _ hmem).2, unbroken_of_isIdentifier hends hname, ?_, ?_⟩
  · intro path shadowed hresolved
    obtain ⟨e, he, rfl⟩ := List.mem_map.mp (hkey path shadowed hresolved)
    exact (hkeys e he).1
  · intro path global hglobal
    obtain ⟨g, -, hglobalName, -⟩ := nameOf_of_defaultExportOf? hbuild hglobal
    exact unbroken_of_isIdentifier hends hglobalName

/-- A binding is nothing, or one line that begins with `var`. -/
theorem bindingOf_cases (hplaceholder : Unbroken ends options.placeholderLiteral)
    {i : ResolvedImport} (hi : i ∈ b.imports) :
    bindingOf b.modules options.placeholderLiteral i = "" ∨
      ∃ line, bindingOf b.modules options.placeholderLiteral i = line ++ "\n" ∧
        Unbroken ends line ∧ "var ".toList <+: line.toList := by
  obtain ⟨-, hname, hpath, hglobal⟩ := unbroken_parts hends hkeys hbuild hi
  have hline : Unbroken ends (placeholderLine i.binding.localName options.placeholderLiteral) :=
    unbroken_interleave hends (by decide)
      ⟨hname, hname, hname, hplaceholder, unbroken_empty ends⟩
  have hvar {fixed fields : List String} (s : String) : "var ".toList <+:
      (interleave ("var " :: fixed) (s :: fields)).toList := by
    rw [interleave, String.toList_append]
    exact List.prefix_append _ _
  unfold bindingOf
  dsimp only
  split
  · exact .inr ⟨_, rfl, hline, hvar _⟩
  next path shadowed hresolved =>
  split
  · exact .inr ⟨_, rfl, hline, hvar _⟩
  next global hdefault =>
  split
  · exact .inl rfl
  · have hmessage : Unbroken ends (failureMessage i.binding.localName path) :=
      unbroken_interleave hends (by decide)
        ⟨hname, hpath path shadowed hresolved, unbroken_empty ends⟩
    have hbinding : Unbroken ends
        (globalLine i.binding.localName global path options.placeholderLiteral) :=
      unbroken_interleave hends (by decide)
        ⟨hname, hglobal path global hdefault, unbroken_quote hends hmessage, hplaceholder,
          unbroken_empty ends⟩
    exact .inr ⟨_, rfl, hbinding, hvar _⟩

/-- The comment on an import that leads somewhere is one line. -/
theorem unbroken_commentOf {i : ResolvedImport} (hi : i ∈ b.imports) {path : String}
    {shadowed : List String} (hresolved : i.resolution = .resolved path shadowed) :
    Unbroken ends (commentOf b.modules i) := by
  obtain ⟨himporter, hname, hpath, -⟩ := unbroken_parts hends hkeys hbuild hi
  have htarget := hpath path shadowed hresolved
  unfold commentOf
  simp only [hresolved]
  split
  · have hlead : Unbroken ends
        (interleave ["// Import resolution for ", ": "] [i.importer, path]) :=
      unbroken_interleave hends (by decide) ⟨himporter, htarget⟩
    exact hlead.append (unbroken_of_printable hends (by decide))
  · split
    · exact unbroken_interleave hends (by decide) ⟨himporter, hname, htarget⟩
    · exact unbroken_interleave hends (by decide) ⟨himporter, hname, htarget⟩

/-- The lines of a comment: one, unless the import leads nowhere. -/
theorem lines_commentOf {i : ResolvedImport} (hi : i ∈ b.imports) :
    ∃ line, "// Import ".toList <+: line ∧
      lines ends ((commentOf b.modules i).toList ++ ['\n']) =
        line :: (if i.resolution = .unresolved then strayLines ends i.binding.specifier
          else []) := by
  cases hresolution : i.resolution with
  | unresolved =>
    have hparts : (commentOf b.modules i).toList =
        (interleave ["// Import not found: ", " from "] [i.binding.localName, ""]).toList ++
          i.binding.specifier.toList := by
      unfold commentOf
      simp only [hresolution, interleave, String.append_empty, String.toList_append,
        List.append_assoc]
    have hname := (unbroken_parts hends hkeys hbuild hi).2.1
    have hfront : Unbroken ends
        (interleave ["// Import not found: ", " from "] [i.binding.localName, ""]) :=
      unbroken_interleave hends (by decide) ⟨hname, unbroken_empty ends⟩
    obtain ⟨line, hline⟩ := lines_specifier _ hfront i.binding.specifier
    rw [hparts, hline, if_pos rfl]
    -- The specifier comes last, so the comment keeps its first words.
    refine ⟨_, ?_, rfl⟩
    rw [interleave, String.toList_append, List.append_assoc]
    exact (by decide : "// Import ".toList <+: "// Import not found: ".toList).trans
      (List.prefix_append _ _)
  | resolved path shadowed =>
    have hunbroken := unbroken_commentOf hends hkeys hbuild hi hresolution
    rw [if_neg (by simp)]
    exact ⟨_, comment_isPrefix_commentOf b.modules i, lines_append_end hunbroken hends.lineFeed []⟩

/-- The lines of an import's code: a comment, the stray lines of the specifier if it leads
    nowhere, and a binding. -/
theorem lines_importCode (hplaceholder : Unbroken ends options.placeholderLiteral)
    {i : ResolvedImport} (hi : i ∈ b.imports) :
    ∃ comment bindings, "// Import ".toList <+: comment ∧
      (∀ line ∈ bindings, "var ".toList <+: line) ∧
      lines ends (importCode b.modules options.placeholderLiteral i).toList = comment ::
        ((if i.resolution = .unresolved then strayLines ends i.binding.specifier else []) ++
          bindings) := by
  obtain ⟨comment, hcomment, hlines⟩ := lines_commentOf hends hkeys hbuild hi
  refine ⟨comment, lines ends (bindingOf b.modules options.placeholderLiteral i).toList,
    hcomment, ?_, ?_⟩
  · intro line hline
    rcases bindingOf_cases hends hkeys hbuild hplaceholder hi with h | ⟨l, h, hl, hvar⟩
    · rw [h] at hline
      cases hline
    · rw [h, lines_line hends hl] at hline
      exact List.mem_singleton.mp hline ▸ hvar
  · rw [importCode_eq, String.toList_append, String.toList_append, ← List.cons_append, ← hlines]
    exact lines_append hends.lineFeed _ _

end Unbroken

/-- If no key, no path and not the placeholder holds a line end, every line of the code for
    the imports begins with a comment or a declaration, or is a stray line of a specifier
    that leads nowhere; and all of these stray lines are lines of the code.  So all lines
    begin as they should if no such specifier holds a line end. -/
theorem lines_resolutionCode (hends : LineEnds ends)
    (hkeys : ∀ e ∈ project.files.entries, Unbroken ends e.1 ∧ Unbroken ends e.2.path)
    (hplaceholder : Unbroken ends options.placeholderLiteral)
    (hbuild : build options project = .ok b) :
    (∀ line ∈ lines ends b.resolutionCode.toList,
      "// Import ".toList <+: line ∨ "var ".toList <+: line ∨
        ∃ i ∈ b.imports, i.resolution = .unresolved ∧
          line ∈ strayLines ends i.binding.specifier) ∧
    (∀ i ∈ b.imports, i.resolution = .unresolved →
      ∀ line ∈ strayLines ends i.binding.specifier,
        line ∈ lines ends b.resolutionCode.toList) ∧
    ((∀ i ∈ b.imports, i.resolution = .unresolved → Unbroken ends i.binding.specifier) →
      ∀ line ∈ lines ends b.resolutionCode.toList,
        "// Import ".toList <+: line ∨ "var ".toList <+: line) := by
  have hall : ∀ line ∈ lines ends b.resolutionCode.toList,
      "// Import ".toList <+: line ∨ "var ".toList <+: line ∨
        ∃ i ∈ b.imports, i.resolution = .unresolved ∧
          line ∈ strayLines ends i.binding.specifier := by
    intro line hline
    obtain ⟨i, hi, hline⟩ := (mem_lines_resolutionCode hends hbuild).mp hline
    obtain ⟨comment, bindings, hcomment, hvar, hlines⟩ :=
      lines_importCode hends hkeys hbuild hplaceholder hi
    rw [hlines, List.mem_cons, List.mem_append] at hline
    rcases hline with rfl | hstray | hbinding
    · exact .inl hcomment
    · split at hstray
      · next hnone => exact .inr (.inr ⟨i, hi, hnone, hstray⟩)
      · cases hstray
    · exact .inr (.inl (hvar line hbinding))
  refine ⟨hall, ?_, ?_⟩
  · intro i hi hnone line hline
    obtain ⟨comment, bindings, -, -, hlines⟩ :=
      lines_importCode hends hkeys hbuild hplaceholder hi
    refine (mem_lines_resolutionCode hends hbuild).mpr ⟨i, hi, ?_⟩
    rw [hlines, if_pos hnone]
    exact List.mem_cons_of_mem _ (List.mem_append_left _ hline)
  · intro hspecifier line hline
    rcases hall line hline with h | h | ⟨i, hi, hnone, hstray⟩
    · exact .inl h
    · exact .inr h
    · rw [strayLines_of_unbroken hends (hspecifier i hi hnone)] at hstray
      cases hstray

/-- A script with a quote over two lines in a comment. -/
def strayImport : Project :=
  .ofFiles [("App.js",
    "/* import X from 'a\nb c' */\nfunction App() \x7b return null; \x7d\n")]

/-- The line feed alone ends lines. -/
theorem lineEnds_lineFeed : LineEnds (· == '\n') where
  lineFeed := rfl
  printable := by
    intro c hc
    rw [beq_eq_false_iff_ne]
    rintro rfl
    cases hc

theorem unbroken_strayImport : ∀ e ∈ strayImport.files.entries,
    Unbroken (· == '\n') e.1 ∧ Unbroken (· == '\n') e.2.path := by
  have hprintable : (strayImport.files.entries.all fun e =>
      e.1.toList.all isPrintable && e.2.path.toList.all isPrintable) = true := by decide
  intro e he
  have hboth := List.all_eq_true.mp hprintable e he
  rw [Bool.and_eq_true] at hboth
  exact ⟨unbroken_of_printable lineEnds_lineFeed hboth.1,
    unbroken_of_printable lineEnds_lineFeed hboth.2⟩

theorem unbroken_defaultPlaceholder :
    Unbroken (· == '\n') ({} : Options).placeholderLiteral :=
  unbroken_of_printable lineEnds_lineFeed (by decide)

theorem exists_build_strayImport : ∃ b, build {} strayImport = .ok b ∧
    b.imports = [⟨"App.js", ⟨"X", "a\nb c"⟩, .unresolved⟩] := by
  have hscripts : strayImport.scripts ≠ [] := by decide
  have himports : resolveImports strayImport (strayImport.scripts.map recordOf) =
      [⟨"App.js", ⟨"X", "a\nb c"⟩, .unresolved⟩] := by
    decide
  exact ⟨_, build_eq_ok_iff.mpr ⟨Options.validate_default, hscripts, rfl⟩, himports⟩

theorem lines_resolutionCode_strayImport : LineEnds (· == '\n') ∧
    (∀ e ∈ strayImport.files.entries, Unbroken (· == '\n') e.1 ∧
      Unbroken (· == '\n') e.2.path) ∧
    Unbroken (· == '\n') ({} : Options).placeholderLiteral ∧
    ∃ b, build {} strayImport = .ok b ∧
      "b c".toList ∈ lines (· == '\n') b.resolutionCode.toList := by
  obtain ⟨b, hbuild, himports⟩ := exists_build_strayImport
  have hstray : "b c".toList ∈ strayLines (· == '\n') "a\nb c" := by decide
  have hlines := (lines_resolutionCode lineEnds_lineFeed unbroken_strayImport
    unbroken_defaultPlaceholder hbuild).2.1
  rw [himports] at hlines
  exact ⟨lineEnds_lineFeed, unbroken_strayImport, unbroken_defaultPlaceholder, b, hbuild,
    hlines _ List.mem_cons_self rfl _ hstray⟩

/-- No key, no path and not the placeholder holds a line feed, but a line of the code begins
    neither with a comment nor with a declaration. -/
theorem exists_stray_line : (∀ e ∈ strayImport.files.entries, Unbroken (· == '\n') e.1 ∧
      Unbroken (· == '\n') e.2.path) ∧
    Unbroken (· == '\n') ({} : Options).placeholderLiteral ∧
    ∃ b, build {} strayImport = .ok b ∧ ¬ ∀ line ∈ lines (· == '\n') b.resolutionCode.toList,
      "// Import ".toList <+: line ∨ "var ".toList <+: line := by
  have hscripts : strayImport.scripts ≠ [] := by decide
  have hlines : ¬ ∀ line ∈ lines (· == '\n')
      (importsCode (strayImport.scripts.map recordOf) ({} : Options).placeholderLiteral
        (resolveImports strayImport (strayImport.scripts.map recordOf))).toList,
      "// Import ".toList <+: line ∨ "var ".toList <+: line := by
    decide
  exact ⟨unbroken_strayImport, unbroken_defaultPlaceholder, _,
    build_eq_ok_iff.mpr ⟨Options.validate_default, hscripts, rfl⟩, hlines⟩

end Bundle

end LivePreview
