/-
  LivePreview.Proofs.BuildInputs

  What a build reads of a project.

  The scripts in their order, the markup of the entry document, and which of the paths that are
  tried for the scripts' imports are keys: where two projects agree on these, they have the
  same preview (`Project.SameInputs`).  So a build never notices which file is selected, what
  stands in files that are not scripts, where these stand, or that one of them is added or
  deleted (`Project.Unnoticed`).  The entry document is read even if it is no script.
-/

import LivePreview.Preview
import LivePreview.Project.Edit
import LivePreview.Proofs.RecordedNames
import Mathlib.Logic.Relation

namespace LivePreview

/-! ## The parts that are read -/

namespace Project

/-- A path that is tried for an import of one of the scripts. -/
def IsCandidate (p : Project) (path : String) : Prop :=
  ∃ f ∈ p.scripts, ∃ i ∈ (Bundle.recordOf f).imports,
    path ∈ Resolution.candidates f.path i.specifier

/-- The projects show a build the same scripts in the same order, the same entry markup, and
    the same keys among the candidates of the imports. -/
structure SameInputs (options : Options) (p q : Project) : Prop where
  scripts_eq : p.scripts = q.scripts
  entryMarkup_eq : p.entryMarkup options.fallbackEntryMarkup =
    q.entryMarkup options.fallbackEntryMarkup
  contains_eq : ∀ path, p.IsCandidate path → p.contains path = q.contains path

end Project

namespace Bundle

variable {options : Options} {p q : Project}

theorem resolveImports_congr (hcontains : ∀ path, p.IsCandidate path →
    p.contains path = q.contains path) :
    resolveImports p (p.scripts.map recordOf) = resolveImports q (p.scripts.map recordOf) := by
  unfold resolveImports
  refine List.flatMap_congr fun m hm => List.map_congr_left fun i hi => ?_
  obtain ⟨f, hf, rfl⟩ := List.mem_map.mp hm
  have hfind : Resolution.find p f.path i.specifier = Resolution.find q f.path i.specifier := by
    refine congrArg Resolution.ofHits (List.filter_congr fun path hpath => ?_)
    exact hcontains path ⟨f, hf, i, hi, hpath⟩
  exact congrArg (ResolvedImport.mk f.path i) hfind

/-- The bundle reads nothing but the scripts and which candidates are keys. -/
theorem build_congr (hscripts : p.scripts = q.scripts)
    (hcontains : ∀ path, p.IsCandidate path → p.contains path = q.contains path) :
    build options p = build options q := by
  have himports := resolveImports_congr hcontains
  unfold build filesToBuild assemble
  cases options.validate with
  | error e => rfl
  | ok u =>
    rw [hscripts] at himports ⊢
    dsimp only
    split
    · rfl
    · simp only [Except.map, himports]

end Bundle

namespace Preview

variable {options : Options} {p q : Project}

theorem build_congr (h : p.SameInputs options q) : build options p = build options q := by
  have hdocument : ofBundle options p = ofBundle options q := by
    funext b
    simp only [ofBundle, h.entryMarkup_eq]
  unfold build
  rw [Bundle.build_congr h.scripts_eq h.contains_eq, hdocument]

end Preview

/-! ## Changes that no build notices -/

namespace Project

/-- A change of a project that no build notices.  A file is analyzable if it is a script with
    more than white space in it. -/
inductive Unnoticed (p : Project) : Project → Prop
  /-- Another file is selected. -/
  | select (path : String) : Unnoticed p { p with activePath := path }
  /-- A file that is neither a script nor the entry document gets another content. -/
  | rewrite {before after : List (String × File)} {key : String} {f : File} (content : String)
      {files : Table File} (hentries : p.files.entries = before ++ (key, f) :: after)
      (hfiles : files.entries = before ++ (key, { f with content }) :: after)
      (hpath : Path.hasScriptExtension f.path = false) (hkey : key ≠ p.entryDocument) :
      Unnoticed p { p with files }
  /-- The files are put in another order, in which the analyzable ones follow each other as
      before. -/
  | reorder {files : Table File} (hperm : p.files.entries.Perm files.entries)
      (hscripts : p.files.entries.filter (·.2.isAnalyzable) =
        files.entries.filter (·.2.isAnalyzable)) :
      Unnoticed p { p with files }
  /-- A file that is not analyzable, not the entry document and no candidate of an import is
      added at some place. -/
  | add {before after : List (String × File)} {key : String} {f : File} {files : Table File}
      (hentries : p.files.entries = before ++ after)
      (hfiles : files.entries = before ++ (key, f) :: after) (hfile : f.isAnalyzable = false)
      (hkey : key ≠ p.entryDocument) (hcandidate : ¬p.IsCandidate key) :
      Unnoticed p { p with files }

theorem scripts_eq_map_filter (p : Project) :
    p.scripts = (p.files.entries.filter (·.2.isAnalyzable)).map Prod.snd := by
  rw [scripts, Table.values, List.filter_map]
  rfl

/-- A project with another table of files shows a build the same if the analyzable files, the
    entry document and the keys among the candidates stay. -/
theorem sameInputs_of_files {p : Project} {files : Table File}
    (hscripts : p.files.entries.filter (·.2.isAnalyzable) =
      files.entries.filter (·.2.isAnalyzable))
    (hdocument : p.files.get? p.entryDocument = files.get? p.entryDocument)
    (hcontains : ∀ path, p.IsCandidate path → p.files.contains path = files.contains path)
    (options : Options) : p.SameInputs options { p with files } where
  scripts_eq := by rw [scripts_eq_map_filter, hscripts, scripts_eq_map_filter]
  entryMarkup_eq := by simp only [entryMarkup, get?, hdocument]
  contains_eq := hcontains

theorem Unnoticed.sameInputs {p q : Project} (h : p.Unnoticed q) (options : Options) :
    p.SameInputs options q := by
  cases h with
  | select path => exact ⟨rfl, rfl, fun _ _ => rfl⟩
  | @rewrite before after key f content files hentries hfiles hpath hkey =>
    have hold : f.isAnalyzable = false := by simp [File.isAnalyzable, hpath]
    have hnew : File.isAnalyzable { f with content } = false := by
      simp [File.isAnalyzable, hpath]
    refine sameInputs_of_files ?_ ?_ (fun path _ => ?_) options
    · simp [hentries, hfiles, hold, hnew]
    · rw [Table.get?, Table.get?, hentries, hfiles, Entries.lookup_insert (Ne.symm hkey),
        Entries.lookup_insert (Ne.symm hkey)]
    · -- The keys are the same ones.
      rw [Bool.eq_iff_iff, Table.contains_iff_mem_keys, Table.contains_iff_mem_keys, Table.keys,
        Table.keys, hentries, hfiles]
      simp
  | reorder hperm hscripts =>
    have hget := Table.get?_eq_of_perm hperm
    exact sameInputs_of_files hscripts (hget _) (fun path _ => congrArg Option.isSome (hget path))
      options
  | @add before after key f files hentries hfiles hfile hkey hcandidate =>
    have hget : ∀ path, path ≠ key → p.files.get? path = files.get? path := by
      intro path hpath
      rw [Table.get?, Table.get?, hentries, hfiles, Entries.lookup_insert hpath]
    refine sameInputs_of_files ?_ (hget _ (Ne.symm hkey)) (fun path hpath => ?_) options
    · simp [hentries, hfiles, hfile]
    · have hk : path ≠ key := fun e => hcandidate (e ▸ hpath)
      exact congrArg Option.isSome (hget path hk)

end Project

namespace Preview

/-- Projects that agree on what a build reads have the same preview, or fail with the same
    error; and no sequence of changes from the list above, made or undone, is noticed. -/
theorem build_noninterference (options : Options) :
    (∀ p q, Project.SameInputs options p q → build options p = build options q) ∧
      ∀ p q, Relation.EqvGen Project.Unnoticed p q → build options p = build options q := by
  refine ⟨fun p q => build_congr, fun p q h => ?_⟩
  induction h with
  | rel p q h => exact build_congr (h.sameInputs options)
  | refl p => rfl
  | symm p q _ ih => exact ih.symm
  | trans p q r _ _ ihp ihq => exact ihp.trans ihq

/-- A page with one script and notes. -/
def notedPage : Project :=
  .ofFiles [("a.js", "function Foo() \x7b\x7d"), ("notes.md", "old")]

/-- The page with other notes. -/
def rewrittenPage : Project :=
  { notedPage with
    files := ⟨[("a.js", ⟨"a.js", "function Foo() \x7b\x7d"⟩),
      ("notes.md", ⟨"notes.md", "new"⟩)], by decide⟩ }

/-- The script of the page imports nothing. -/
theorem not_isCandidate_notedPage (path : String) : ¬notedPage.IsCandidate path := by
  rintro ⟨f, hf, i, hi, -⟩
  have himports : ∀ f ∈ notedPage.scripts, (Bundle.recordOf f).imports = [] := by decide
  rw [himports f hf] at hi
  cases hi

theorem build_noninterference_notedPage :
    Project.SameInputs {} notedPage rewrittenPage ∧
      Relation.EqvGen Project.Unnoticed (rewrittenPage.setActive "notes.md") notedPage ∧
      build {} (rewrittenPage.setActive "notes.md") = build {} rewrittenPage := by
  have hinputs : Project.SameInputs {} notedPage rewrittenPage :=
    ⟨by decide, by decide, fun path hpath => absurd hpath (not_isCandidate_notedPage path)⟩
  have hentries : notedPage.files.entries =
      [("a.js", ⟨"a.js", "function Foo() \x7b\x7d"⟩)] ++ ("notes.md", ⟨"notes.md", "old"⟩) :: [] :=
    rfl
  have hrewrite : notedPage.Unnoticed rewrittenPage :=
    .rewrite "new" hentries rfl (by decide) (by decide)
  have hchanges :
      Relation.EqvGen Project.Unnoticed (rewrittenPage.setActive "notes.md") notedPage :=
    (Relation.EqvGen.trans _ _ _ (.rel _ _ hrewrite) (.rel _ _ (.select "notes.md"))).symm _ _
  have hnoninterference := build_noninterference {}
  exact ⟨hinputs, hchanges,
    (hnoninterference.2 _ _ hchanges).trans (hnoninterference.1 _ _ hinputs)⟩

/-! ## An added entry document -/

/-- A page shows its markup. -/
theorem page_inj {options : Options} {m n code : String} {hints : EntryHints}
    (h : Document.page options m code hints = Document.page options n code hints) : m = n := by
  have hlist := congrArg String.toList h
  refine String.toList_inj.mp ?_
  simpa [Document.page, List.append_assoc] using hlist

/-- The page with an entry document. -/
def enteredPage : Project :=
  { notedPage with files := notedPage.files.put "index.html" ⟨"index.html", "<p></p>"⟩ }

/-- An entry document that is added is noticed, though it is not analyzable and no candidate
    of an import. -/
theorem build_enteredPage_ne : File.isAnalyzable ⟨"index.html", "<p></p>"⟩ = false ∧
    notedPage.contains "index.html" = false ∧ ¬notedPage.IsCandidate "index.html" ∧
      build {} enteredPage ≠ build {} notedPage := by
  refine ⟨by decide, by decide, not_isCandidate_notedPage _, fun h => ?_⟩
  have hbundle : Bundle.build {} notedPage = Bundle.build {} enteredPage :=
    Bundle.build_congr (by decide) fun path hpath => absurd hpath (not_isCandidate_notedPage path)
  have hscripts : notedPage.scripts ≠ [] := by decide
  have hbuild : Bundle.build {} notedPage = .ok _ :=
    Bundle.build_eq_ok_iff.mpr ⟨Options.validate_default, hscripts, rfl⟩
  rw [build, build, ← hbundle, hbuild] at h
  have hmarkup := page_inj (congrArg (fun p => p.document.html) (Except.ok.inj h))
  revert hmarkup
  decide

end Preview

end LivePreview
