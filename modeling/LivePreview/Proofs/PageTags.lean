/-
  LivePreview.Proofs.PageTags

  The script elements of a page close where the page closes them.

  A page is put together from blocks of whole lines (`Document.IsBlock`), so the closing
  tags are counted block by block.  Apart from the entry markup only the page itself
  brings some in: one for the reporter, one for each runtime script, and one for the
  bundle script, which is the first behind the opening tag of that script
  (`Preview.closings_html`).
-/

import LivePreview.Preview
import LivePreview.Proofs.ClosingTags
import LivePreview.Proofs.RecordedNames

namespace LivePreview

open Html Pattern Script Text

namespace Document

variable {φ : Folding} {options : Options} {hints : EntryHints} {s t : String} {m n : Nat}

/-! ## Blocks of lines -/

/-- The text is made of whole lines and holds that many closing tags. -/
structure IsBlock (φ : Folding) (n : Nat) (s : String) : Prop where
  closings_eq : closings φ s = n
  endsLine : EndsLine s.toList

/-- No closing tag goes on behind a line. -/
theorem divides_of_endsLine (hs : EndsLine s.toList) (v : List Char) :
    Divides closingTag (φ.text s) v := by
  refine .inl ?_
  rw [Folding.text, List.getLast?_map]
  rcases hs with hs | hs
  · rw [hs]
    rfl
  · rw [hs]
    cases φ <;> decide

theorem IsBlock.append (hs : IsBlock φ m s) (ht : IsBlock φ n t) : IsBlock φ (m + n) (s ++ t) where
  closings_eq := by
    rw [closings_append (divides_of_endsLine hs.endsLine _), hs.closings_eq, ht.closings_eq]
  endsLine := by
    rw [String.toList_append]
    rcases ht.endsLine with h | h
    · rw [h, List.append_nil]
      exact hs.endsLine
    · exact .inr (by rw [List.getLast?_append, h]; rfl)

theorem endsLine_append_ofList {l : List Char} (h : l.getLast? = some '\n') :
    EndsLine (s ++ String.ofList l).toList := by
  rw [String.toList_append, String.toList_ofList]
  exact .inr (by rw [List.getLast?_append, h]; rfl)

/-- A text is a block with the end of a line behind it. -/
theorem isBlock_line (h : closings φ s = n) : IsBlock φ n (s ++ "\n") where
  closings_eq := by
    have hjoint : Divides closingTag (φ.text s) (φ.text "\n") := .inr (by cases φ <;> decide)
    have hempty : closings φ "\n" = 0 := closings_of_not_mem (by decide)
    rw [closings_append hjoint, h, hempty, Nat.add_zero]
  endsLine := by
    rw [String.toList_append]
    exact endsLine_append_lineFeed _

theorem isBlock_join {ls : List String} (h : ∀ s ∈ ls, IsBlock φ n s) :
    IsBlock φ (ls.length * n) (String.join ls) := by
  induction ls with
  | nil => exact ⟨by rw [List.length_nil, Nat.zero_mul]; rfl, .inl rfl⟩
  | cons s ls ih =>
    rw [List.forall_mem_cons] at h
    rw [String.join_cons, List.length_cons, Nat.succ_mul, Nat.add_comm]
    exact h.1.append (ih h.2)

theorem isBlock_lines {ls : List String} (h : ∀ s ∈ ls, closings φ s = 0) :
    IsBlock φ 0 (lines ls) := by
  have hblocks : ∀ s ∈ ls.map (· ++ "\n"), IsBlock φ 0 s := by
    intro s hs
    obtain ⟨line, hline, rfl⟩ := List.mem_map.mp hs
    exact isBlock_line (h line hline)
  exact isBlock_join hblocks

/-! ## Fields -/

/-- A text without `<` between two texts that close nothing. -/
theorem closings_field {a b : List Char} {x : String} (hx : '<' ∉ x.toList)
    (h : ∀ φ : Folding, Encloses φ a b ∧ occurrences closingTag (a.map φ.fold) = 0 ∧
      occurrences closingTag (b.map φ.fold) = 0) :
    closings φ (String.ofList a ++ x ++ String.ofList b) = 0 := by
  rw [closings_enclosed (h φ).1, (h φ).2.1, (h φ).2.2, closings_of_not_mem hx]

theorem not_mem_of_all {p : Char → Bool} {x : String} (hx : x.toList.all p = true)
    (hp : p '<' = false) : '<' ∉ x.toList := by
  intro hmem
  rw [List.all_eq_true.mp hx _ hmem] at hp
  cases hp

theorem not_mem_rootElementId (h : options.validate = .ok ()) :
    '<' ∉ options.rootElementId.toList := by
  have hid := (Options.validate_eq_ok_iff.mp h).2
  refine not_mem_of_all (p := Options.isElementIdPart) ?_ (by decide)
  cases hchars : options.rootElementId.toList with
  | nil => rfl
  | cons c cs =>
    rw [hchars, Options.isElementId, Bool.and_eq_true] at hid
    simp [Options.isElementIdPart, Char.isAlphanum, hid.1, hid.2]

theorem not_mem_sharedDefaultSlot (h : options.validate = .ok ()) :
    '<' ∉ options.sharedDefaultSlot.toList :=
  not_mem_of_all (all_isIdentifierPart_of_isIdentifier (Options.validate_eq_ok_iff.mp h).1)
    (by decide)

theorem not_mem_intercalate {ls : List String} (h : ∀ s ∈ ls, '<' ∉ s.toList) :
    '<' ∉ (String.intercalate "," ls).toList := by
  induction ls with
  | nil => decide
  | cons s ls ih =>
    rw [List.forall_mem_cons] at h
    cases ls with
    | nil => rw [String.intercalate_singleton]; exact h.1
    | cons t ls =>
      rw [String.intercalate_cons_cons, String.toList_append, String.toList_append,
        List.mem_append, List.mem_append, not_or, not_or]
      exact ⟨⟨h.1, by decide⟩, ih h.2⟩

theorem not_mem_quoteAll {names : List String} (h : ∀ name ∈ names, '<' ∉ name.toList) :
    '<' ∉ (quoteAll names).toList := by
  have hquoted : ∀ s ∈ names.map Json.quote, '<' ∉ s.toList := by
    intro s hs
    obtain ⟨name, hname, rfl⟩ := List.mem_map.mp hs
    exact not_mem_quote (h name hname)
  rw [quoteAll, String.toList_append, String.toList_append, List.mem_append, List.mem_append,
    not_or, not_or]
  exact ⟨⟨by decide, not_mem_intercalate hquoted⟩, by decide⟩

theorem not_mem_attr {name : String} (hname : '<' ∉ name.toList) (value : String) :
    '<' ∉ (attr name value).toList := by
  unfold attr
  split
  · decide
  · simp [hname, not_mem_escape]

/-! ## The parts of a page -/

theorem isBlock_head (h : options.validate = .ok ()) : IsBlock φ 0 (head options) := by
  refine isBlock_lines ?_
  simp only [List.forall_mem_cons]
  and_intros
  -- All lines but those with the title and the element id are fixed.
  all_goals try (rw [closings_fixed]; decide)
  · exact closings_field (not_mem_escape _) (by decide)
  · rw [← String.ofList_append, closings_fixed]
    set_option maxRecDepth 2000 in decide
  · exact closings_field (not_mem_rootElementId h) (by decide)
  · intro s hs
    cases hs

theorem isBlock_reporter (h : options.validate = .ok ()) : IsBlock φ 0 (reporter options) := by
  refine isBlock_lines ?_
  simp only [List.forall_mem_cons]
  and_intros
  all_goals try (rw [closings_fixed]; decide)
  · exact closings_field (not_mem_quote (not_mem_rootElementId h)) (by decide)
  · intro s hs
    cases hs

theorem isBlock_runtimeScript (url : String) : IsBlock φ 1 (runtimeScript url) where
  closings_eq := by
    refine (closings_enclosed (by cases φ <;> decide) (escape url)).trans ?_
    rw [closings_of_not_mem (not_mem_escape url)]
    cases φ <;> decide
  endsLine := endsLine_append_ofList (by decide)

theorem isBlock_bundleTag (options : Options) : IsBlock φ 0 (bundleTag options) where
  closings_eq := by
    have hattrs : '<' ∉ (attr "type" options.bundleScriptType ++
        attr "data-presets" options.bundlePresets).toList := by
      rw [String.toList_append, List.mem_append, not_or]
      exact ⟨not_mem_attr (by decide) _, not_mem_attr (by decide) _⟩
    have htag : bundleTag options = "<script" ++ (attr "type" options.bundleScriptType ++
        attr "data-presets" options.bundlePresets) ++ ">\n" := by
      rw [bundleTag, ← String.append_assoc]
    rw [htag]
    exact closings_field hattrs (by decide)
  endsLine := endsLine_append_ofList (by decide)

theorem isBlock_epilogue (h : options.validate = .ok ())
    (hnames : ∀ name ∈ hints.componentCandidates, '<' ∉ name.toList) :
    IsBlock φ 0 (epilogue hints options) := by
  have hslot := not_mem_sharedDefaultSlot h
  refine isBlock_lines ?_
  simp only [List.forall_mem_cons]
  and_intros
  all_goals try (rw [closings_fixed]; decide)
  all_goals try (rw [← String.ofList_append, closings_fixed]; decide)
  · exact closings_field hslot (by decide)
  · exact closings_field hslot (by decide)
  · exact closings_field (not_mem_quoteAll hnames) (by decide)
  · exact closings_field (not_mem_quote (not_mem_rootElementId h)) (by decide)
  · exact closings_field (not_mem_quote (by decide)) (by decide)
  · intro s hs
    cases hs

/-! ## The page -/

/-- What stands on a page before its bundle script. -/
def opening (options : Options) (markup : String) : String :=
  head options ++ (markup ++ "\n") ++ ("<script>" ++ "\n") ++ reporter options ++
    ("</script>" ++ "\n") ++ String.join (options.runtimeScripts.map runtimeScript)

/-- What stands in the bundle script. -/
def scriptText (options : Options) (code : String) (hints : EntryHints) : String :=
  (escapeScript options.runtimePrelude ++ "\n") ++ (escapeScript code ++ "\n") ++
    epilogue hints options

/-- What stands behind the bundle script, its closing tag first. -/
def ending : String := "</script>\n</body>\n</html>\n"

theorem page_eq (options : Options) (markup code : String) (hints : EntryHints) :
    page options markup code hints = opening options markup ++
      (bundleTag options ++ (scriptText options code hints ++ ending)) := by
  have hopen : "<script>\n" = "<script>" ++ "\n" := by decide
  have hclose : "</script>\n" = "</script>" ++ "\n" := by decide
  simp only [page, opening, scriptText, ending, hopen, hclose, String.append_assoc]

theorem isBlock_opening (h : options.validate = .ok ()) (markup : String) :
    IsBlock φ (closings φ markup + options.runtimeScripts.length + 1) (opening options markup) := by
  have hmarkup : IsBlock φ (closings φ markup) (markup ++ "\n") := isBlock_line rfl
  have hopen : IsBlock φ 0 ("<script>" ++ "\n") :=
    isBlock_line (closings_fixed (by decide))
  have hclose : IsBlock φ 1 ("</script>" ++ "\n") :=
    isBlock_line (by rw [closings_ofList]; cases φ <;> decide)
  have hscripts : IsBlock φ ((options.runtimeScripts.map runtimeScript).length * 1)
      (String.join (options.runtimeScripts.map runtimeScript)) := by
    refine isBlock_join fun s hs => ?_
    obtain ⟨url, -, rfl⟩ := List.mem_map.mp hs
    exact isBlock_runtimeScript url
  have hcount : 0 + closings φ markup + 0 + 0 + 1 +
      (options.runtimeScripts.map runtimeScript).length * 1 =
        closings φ markup + options.runtimeScripts.length + 1 := by
    rw [List.length_map]
    omega
  rw [← hcount]
  exact (((((isBlock_head h).append hmarkup).append hopen).append
    (isBlock_reporter h)).append hclose).append hscripts

theorem isBlock_scriptText (h : options.validate = .ok ())
    (hnames : ∀ name ∈ hints.componentCandidates, '<' ∉ name.toList) (code : String) :
    IsBlock φ 0 (scriptText options code hints) :=
  ((isBlock_line (closings_escapeScript _)).append
    (isBlock_line (closings_escapeScript _))).append (isBlock_epilogue h hnames)

theorem isBlock_ending : IsBlock φ 1 ending where
  closings_eq := by
    rw [ending, closings_ofList]
    cases φ <;> decide
  endsLine := .inr (by rw [ending, String.toList_ofList]; decide)

/-- Behind a block without a closing tag the first one is not before its end. -/
theorem IsBlock.isPrefix_of_closing (hs : IsBlock φ 0 s) {before after : String}
    (hsplit : s ++ t = before ++ after) (hafter : closingTag <+: φ.text after) :
    s.toList <+: before.toList := by
  -- Folding keeps lengths, so what holds of the letters holds of the texts.
  have hfolded : φ.text s <+: φ.text before := by
    refine (closings_eq_zero_iff.mp hs.closings_eq).isPrefix_of_isPrefix
      (divides_of_endsLine hs.endsLine (φ.text t)) ?_ hafter
    rw [← Folding.text_append, hsplit, Folding.text_append]
  have hlength : s.toList.length ≤ before.toList.length := by
    simpa [Folding.text] using hfolded.length_le
  have hwhole : s.toList <+: before.toList ++ after.toList := by
    rw [← String.toList_append, ← hsplit, String.toList_append]
    exact List.prefix_append _ _
  exact List.prefix_of_prefix_length_le hwhole (List.prefix_append _ _) hlength

end Document

namespace Preview

variable {options : Options} {project : Project} {p : Preview}

theorem build_eq_ok_iff : build options project = .ok p ↔
    ∃ b, Bundle.build options project = .ok b ∧ ofBundle options project b = p := by
  unfold build
  cases Bundle.build options project <;> simp [Except.map]

open Document in
/-- The closing tags of a page are those of the entry markup, one for each runtime script, and
    two more.  The bundle script closes with the first one behind its opening tag. -/
theorem closings_html (φ : Folding) (h : build options project = .ok p) :
    closings φ p.document.html =
        closings φ (project.entryMarkup options.fallbackEntryMarkup) +
          options.runtimeScripts.length + 2 ∧
      p.document.html = opening options (project.entryMarkup options.fallbackEntryMarkup) ++
        (bundleTag options ++ (scriptText options p.bundle.code p.bundle.hints ++ ending)) ∧
      ∀ before after,
        scriptText options p.bundle.code p.bundle.hints ++ ending = before ++ after →
          closingTag <+: φ.text after →
            (scriptText options p.bundle.code p.bundle.hints).toList <+: before.toList := by
  obtain ⟨b, hbuild, rfl⟩ := build_eq_ok_iff.mp h
  have hvalid := (Bundle.build_eq_ok_iff.mp hbuild).1
  have hnames : ∀ name ∈ b.hints.componentCandidates, '<' ∉ name.toList := fun name hname =>
    not_mem_of_all (Bundle.all_isIdentifierPart_of_mem_candidates hbuild hname) (by decide)
  have hscript : IsBlock φ 0 (scriptText options b.code b.hints) :=
    isBlock_scriptText hvalid hnames b.code
  have hpage := page_eq options (project.entryMarkup options.fallbackEntryMarkup) b.code b.hints
  refine ⟨?_, hpage, fun before after => hscript.isPrefix_of_closing⟩
  -- The page is one block, and the closing tags of its parts add up.
  have hblock := (isBlock_opening (φ := φ) hvalid
    (project.entryMarkup options.fallbackEntryMarkup)).append
      ((isBlock_bundleTag options).append (hscript.append isBlock_ending))
  exact (congrArg (closings φ) hpage).trans hblock.closings_eq

/-- Closing tags in a script, in the entry document and in the settings. -/
def closingTexts : Project :=
  .ofFiles [("index.html", "<div></SCRIPT></div>"),
    ("App.js", "export default function App() \x7b return '</sCript>'; \x7d\n")]

def closingOptions : Options :=
  { documentTitle := "</script>", runtimePrelude := "// </script>",
    runtimeScripts := ["</script>"] }

theorem closings_html_closingTexts : ∃ p, build closingOptions closingTexts = .ok p ∧
    closings .ascii p.document.html = 4 := by
  have hvalid : closingOptions.validate = .ok () :=
    Options.validate_eq_ok_iff.mpr (by decide)
  have hscripts : closingTexts.scripts ≠ [] := by decide
  have hmarkup : closings .ascii
      (closingTexts.entryMarkup closingOptions.fallbackEntryMarkup) = 1 := by
    decide
  have hbuild : build closingOptions closingTexts = .ok _ :=
    build_eq_ok_iff.mpr ⟨_, Bundle.build_eq_ok_iff.mpr ⟨hvalid, hscripts, rfl⟩, rfl⟩
  refine ⟨_, hbuild, ?_⟩
  rw [(closings_html .ascii hbuild).1, hmarkup]
  rfl

end Preview

end LivePreview
