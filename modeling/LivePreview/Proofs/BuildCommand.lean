/-
  LivePreview.Proofs.BuildCommand

  The command that builds a folder, on any disk.

  Options and folder are only read, and the one file is written when everything else is done.
  So a build delivers the page of the preview, or it fails and leaves the disk as it was
  (`runBuild_cases`), and no command line that fails prints anything or changes the disk
  (`run_of_exitCode_ne_zero`).
-/

import LivePreview.Proofs.ImportedView
import LivePreview.Proofs.PageTags
import LivePreview.Proofs.WrittenFile

namespace LivePreview.Command

variable {d : Disk} {folder : String} {out config : Option String} {preview : Preview}

/-! ## Command lines -/

/-- An argument that is taken for a value: it is not empty and does not look like an option. -/
structure IsPlain (arg : String) : Prop where
  ne_empty : arg ≠ ""
  not_dashed : isDashed arg = false

instance (arg : String) : Decidable (IsPlain arg) :=
  decidable_of_iff (arg ≠ "" ∧ isDashed arg = false)
    ⟨fun h => ⟨h.1, h.2⟩, fun h => ⟨h.ne_empty, h.not_dashed⟩⟩

/-- An option with its value, if it is given. -/
def optionArgs (name : String) : Option String → List String
  | none => []
  | some value => [name, value]

/-- The command line that builds a folder. -/
def buildArgs (folder : String) (out config : Option String) : List String :=
  "build" :: folder :: (optionArgs "--out" out ++ optionArgs "--config" config)

theorem IsPlain.isEmpty_eq {arg : String} (h : IsPlain arg) : arg.isEmpty = false := by
  simpa using h.ne_empty

theorem IsPlain.canBeValue {arg : String} (h : IsPlain arg) : canBeValue arg = true := by
  rw [Command.canBeValue, h.not_dashed, Bool.not_false]

theorem IsPlain.ne_of_isDashed {arg option : String} (h : IsPlain arg)
    (hoption : isDashed option = true) : arg ≠ option := by
  rintro rfl
  rw [h.not_dashed] at hoption
  cases hoption

/-- A plain argument that stands alone is the folder. -/
theorem takeOne?_plain {arg : String} (h : IsPlain arg) (verb : Verb) (draft : Draft) :
    takeAll?.takeOne? verb draft arg = draft.takeFolder? arg := by
  have hverbose : ¬(arg = "-v" ∨ arg = "--verbose") :=
    not_or.mpr ⟨h.ne_of_isDashed (by decide), h.ne_of_isDashed (by decide)⟩
  rw [takeAll?.takeOne?, if_neg hverbose, h.not_dashed]
  rfl

theorem takeAll?_folder (h : IsPlain folder) (rest : List String) :
    takeAll? .build {} (folder :: rest) = takeAll? .build { folder := some folder } rest := by
  have htake : takeAll?.takeOne? .build {} folder = some { folder := some folder } := by
    rw [takeOne?_plain h, Draft.takeFolder?, h.isEmpty_eq]
    rfl
  have hrest : folder ≠ "--" := h.ne_of_isDashed (by decide)
  cases rest with
  | nil =>
    rw [takeAll?, takeAll?, htake]
    exact hrest
  | cons next rest =>
    have hout : ¬(Verb.build = .build ∧ folder = "--out") :=
      fun heq => h.ne_of_isDashed (by decide) heq.2
    have hconfig : ¬(Verb.build = .build ∧ folder = "--config") :=
      fun heq => h.ne_of_isDashed (by decide) heq.2
    rw [takeAll?, if_neg hout, if_neg hconfig, htake, Option.bind_some]
    exact hrest

theorem takeAll?_out (h : ∀ path ∈ out, IsPlain path) (folder : Option String)
    (rest : List String) :
    takeAll? .build { folder } (optionArgs "--out" out ++ rest) =
      takeAll? .build { folder, out } rest := by
  cases out with
  | none => rfl
  | some path =>
    have hpath := h path rfl
    have htake : Draft.takeOut? { folder } path = some { folder, out := some path } := by
      rw [Draft.takeOut?, hpath.isEmpty_eq]
      rfl
    rw [optionArgs, List.cons_append, List.cons_append, List.nil_append, takeAll?,
      if_pos ⟨rfl, rfl⟩, if_pos hpath.canBeValue, htake, Option.bind_some]
    decide

theorem takeAll?_config (h : ∀ path ∈ config, IsPlain path) (folder out : Option String) :
    takeAll? .build { folder, out } (optionArgs "--config" config) =
      some { folder, out, config } := by
  cases config with
  | none => rw [optionArgs, takeAll?]
  | some path =>
    have hpath := h path rfl
    have htake : Draft.takeConfig? { folder, out } path =
        some { folder, out, config := some path } := by
      rw [Draft.takeConfig?, hpath.isEmpty_eq]
      rfl
    rw [optionArgs, takeAll?, if_neg (by decide), if_pos ⟨rfl, rfl⟩, if_pos hpath.canBeValue,
      htake, Option.bind_some, takeAll?]
    decide

theorem request?_buildArgs (hfolder : IsPlain folder) (hout : ∀ path ∈ out, IsPlain path)
    (hconfig : ∀ path ∈ config, IsPlain path) :
    request? (buildArgs folder out config) = some (.build folder out config) := by
  have hdraft : takeAll? .build {}
      (folder :: (optionArgs "--out" out ++ optionArgs "--config" config)) =
        some { folder := some folder, out, config } := by
    rw [takeAll?_folder hfolder, takeAll?_out hout, takeAll?_config hconfig]
  have hverb : request? (buildArgs folder out config) = Verb.build.request?
      (folder :: (optionArgs "--out" out ++ optionArgs "--config" config)) := rfl
  rw [hverb, Verb.request?, hdraft]
  rfl

/-! ## What is read -/

/-- The options that a build is given: those of a file, or those that hold when nothing is
    set. -/
def Configured (d : Disk) : Option String → Options → Prop
  | none, options => options = {}
  | some path, options => ∃ text, d.readText path = .ok text ∧ Options.ofJson? text = .ok options

theorem loadOptions_of_configured {options : Options} (h : Configured d config options) :
    loadOptions .ofDisk config d = (.ok options, d) := by
  cases config with
  | none =>
    obtain rfl : options = {} := h
    rfl
  | some path =>
    obtain ⟨text, hread, hparse⟩ := h
    simp only [loadOptions, bind, StateT.bind, Files.ofDisk, hread, hparse]
    rfl

theorem loadOptions_of_not_configured (h : ¬∃ options, Configured d config options) :
    ∃ e, loadOptions .ofDisk config d = (.error e, d) := by
  cases config with
  | none => exact absurd ⟨_, rfl⟩ h
  | some path =>
    simp only [loadOptions, bind, StateT.bind, Files.ofDisk]
    cases hread : d.readText path with
    | error e => exact ⟨_, rfl⟩
    | ok text =>
      cases hparse : Options.ofJson? text with
      | error e =>
        simp only [hparse]
        exact ⟨_, rfl⟩
      | ok options => exact absurd ⟨options, text, hread, hparse⟩ h

theorem loadProject_ofDisk_error {e : LibraryError} (h : d.importProject folder = .error e) :
    loadProject .ofDisk folder d = (.error (.unreadableFolder folder), d) := by
  unfold Disk.importProject at h
  unfold loadProject
  simp only [bind, StateT.bind, Files.ofDisk]
  split at h
  · next hcontents =>
    simp only [hcontents]
    rfl
  · next entries hcontents =>
    simp only [hcontents, h]
    rfl

/-- The preview that a build makes on this disk: the options can be read, the folder can be
    imported, and the project builds. -/
def Makes (d : Disk) (folder : String) (config : Option String) (preview : Preview) : Prop :=
  ∃ options project, Configured d config options ∧ d.importProject folder = .ok project ∧
    Preview.build options project = .ok preview

/-- What is read and built goes into the delivery, and the disk stays until then. -/
theorem runBuild_of_makes (h : Makes d folder config preview) (out : Option String) :
    runBuild .ofDisk folder out config d = deliver .ofDisk preview.document.html out d := by
  obtain ⟨options, project, hoptions, hproject, hbuild⟩ := h
  simp only [runBuild, bind, StateT.bind, loadOptions_of_configured hoptions,
    Disk.loadProject_ofDisk hproject, hbuild]

theorem runBuild_of_not_makes (h : ¬∃ preview, Makes d folder config preview)
    (out : Option String) : ∃ e, runBuild .ofDisk folder out config d = (.failed e, d) := by
  by_cases hoptions : ∃ options, Configured d config options
  · obtain ⟨options, hoptions⟩ := hoptions
    have hload := loadOptions_of_configured hoptions
    cases hproject : d.importProject folder with
    | error e =>
      simp only [runBuild, bind, StateT.bind, hload, loadProject_ofDisk_error hproject]
      exact ⟨_, rfl⟩
    | ok project =>
      simp only [runBuild, bind, StateT.bind, hload, Disk.loadProject_ofDisk hproject]
      cases hbuild : Preview.build options project with
      | error e => exact ⟨_, rfl⟩
      | ok preview => exact absurd ⟨preview, options, project, hoptions, hproject, hbuild⟩ h
  · obtain ⟨e, he⟩ := loadOptions_of_not_configured hoptions
    simp only [runBuild, bind, StateT.bind, he]
    exact ⟨_, rfl⟩

/-! ## What is handed over -/

/-- A page is handed over: it is in the file and nothing is printed, or it is printed and the
    disk stays. -/
def Delivered (d : Disk) (html : String) : Option String → String → Disk → Prop
  | none, output, d' => output = html ++ "\n" ∧ d' = d
  | some path, output, d' => output = "" ∧ d.Wrote path html d'

theorem deliver_of_canWrite (h : ∀ path ∈ out, d.CanWrite path) (html : String) :
    ∃ output d', deliver .ofDisk html out d = (.done output, d') ∧
      Delivered d html out output d' := by
  cases out with
  | none => exact ⟨_, d, rfl, rfl, rfl⟩
  | some path =>
    obtain ⟨d', hwrite, hwrote⟩ := Disk.writeText_of_canWrite (h path rfl) html
    refine ⟨"", d', ?_, rfl, hwrote⟩
    simp only [deliver, bind, StateT.bind, Files.ofDisk, hwrite]
    rfl

theorem deliver_of_not_canWrite (h : ¬∀ path ∈ out, d.CanWrite path) (html : String) :
    ∃ e, deliver .ofDisk html out d = (.failed e, d) := by
  cases out with
  | none => exact absurd (fun _ hpath => nomatch hpath) h
  | some path =>
    have hpath : ¬d.CanWrite path := by simpa using h
    obtain ⟨e, hwrite⟩ := Disk.writeText_of_not_canWrite hpath html
    simp only [deliver, bind, StateT.bind, Files.ofDisk, hwrite]
    exact ⟨_, rfl⟩

/-! ## Whole runs -/

/-- A build that makes a preview and can write it delivers it; any other fails and leaves the
    disk as it was. -/
theorem runBuild_cases (d : Disk) (folder : String) (out config : Option String) :
    (∃ preview output d', Makes d folder config preview ∧ (∀ path ∈ out, d.CanWrite path) ∧
      runBuild .ofDisk folder out config d = (.done output, d') ∧
      Delivered d preview.document.html out output d') ∨
    ¬((∃ preview, Makes d folder config preview) ∧ ∀ path ∈ out, d.CanWrite path) ∧
      ∃ e, runBuild .ofDisk folder out config d = (.failed e, d) := by
  by_cases hmakes : ∃ preview, Makes d folder config preview
  · by_cases hout : ∀ path ∈ out, d.CanWrite path
    · obtain ⟨preview, hpreview⟩ := hmakes
      obtain ⟨output, d', hdeliver, hdelivered⟩ :=
        deliver_of_canWrite hout preview.document.html
      rw [← runBuild_of_makes hpreview out] at hdeliver
      exact .inl ⟨preview, output, d', hpreview, hout, hdeliver, hdelivered⟩
    · refine .inr ⟨fun h => hout h.2, ?_⟩
      obtain ⟨preview, hpreview⟩ := hmakes
      rw [runBuild_of_makes hpreview out]
      exact deliver_of_not_canWrite hout _
  · exact .inr ⟨fun h => hmakes h.1, runBuild_of_not_makes hmakes out⟩

theorem run_tree_of_error {e : LibraryError} (h : d.importProject folder = .error e) :
    (Request.tree folder).run .ofDisk d = (.failed (.unreadableFolder folder), d) := by
  simp only [Request.run, runTree, bind, StateT.bind, loadProject_ofDisk_error h]
  rfl

/-- A command line that fails prints nothing and leaves the disk as it was. -/
theorem run_of_exitCode_ne_zero {args : List String} {outcome : Outcome} {d' : Disk}
    (hrun : run .ofDisk args d = (outcome, d')) (h : outcome.exitCode ≠ 0) :
    outcome.output = "" ∧ d' = d := by
  unfold run at hrun
  cases hrequest : request? args with
  | none =>
    rw [hrequest] at hrun
    cases hrun
    exact ⟨rfl, rfl⟩
  | some request =>
    rw [hrequest] at hrun
    dsimp only at hrun
    cases request with
    | version =>
      cases hrun
      exact absurd rfl h
    | build folder out config =>
      rw [Request.run] at hrun
      -- A build that fails has written nothing.
      rcases runBuild_cases d folder out config with ⟨_, _, _, -, -, hdone, -⟩ | ⟨-, e, hfailed⟩
      · cases hdone.symm.trans hrun
        exact absurd rfl h
      · cases hfailed.symm.trans hrun
        exact ⟨rfl, rfl⟩
    | tree folder =>
      cases hproject : d.importProject folder with
      | error e =>
        cases (run_tree_of_error hproject).symm.trans hrun
        exact ⟨rfl, rfl⟩
      | ok project =>
        cases (Disk.run_tree hproject).symm.trans hrun
        exact absurd rfl h

/-- The command that builds a folder, on any disk.  It can be written as usual, or as any other
    command line that asks for the same.  A command line that fails printed nothing, and the
    disk is as it was.  The command succeeds if the options can be read, the folder imported,
    the preview built and the file, if there is one, written; then the page of that preview is
    handed over, and nothing else is done. -/
theorem run_build (d : Disk) (folder : String) (out config : Option String) :
    (IsPlain folder → (∀ path ∈ out, IsPlain path) → (∀ path ∈ config, IsPlain path) →
      request? (buildArgs folder out config) = some (.build folder out config)) ∧
    ∀ args outcome d', run .ofDisk args d = (outcome, d') →
      (outcome.exitCode ≠ 0 → outcome.output = "" ∧ d' = d) ∧
      (request? args = some (.build folder out config) →
        (outcome.exitCode = 0 ↔
          (∃ preview, Makes d folder config preview) ∧ ∀ path ∈ out, d.CanWrite path) ∧
        (outcome.exitCode = 0 → ∃ preview, Makes d folder config preview ∧
          Delivered d preview.document.html out outcome.output d')) := by
  refine ⟨request?_buildArgs, fun args outcome d' hrun => ⟨run_of_exitCode_ne_zero hrun, ?_⟩⟩
  intro hargs
  have hbuild : run .ofDisk args d = runBuild .ofDisk folder out config d := by
    rw [run, hargs]
    rfl
  rw [hbuild] at hrun
  rcases runBuild_cases d folder out config with
    ⟨preview, output, _, hmakes, hout, hdone, hdelivered⟩ | ⟨hnot, e, hfailed⟩
  · cases hdone.symm.trans hrun
    exact ⟨⟨fun _ => ⟨⟨preview, hmakes⟩, hout⟩, fun _ => rfl⟩,
      fun _ => ⟨preview, hmakes, hdelivered⟩⟩
  · cases hfailed.symm.trans hrun
    have hcode : (Outcome.failed e).exitCode ≠ 0 := by simp [Outcome.exitCode]
    exact ⟨⟨fun h => absurd h hcode, fun h => absurd h hnot⟩, fun h => absurd h hcode⟩

/-- A folder with one script, and options beside it. -/
def appDisk : Disk :=
  ⟨[(["app"], .folder), (["app", "a.js"], .file "let a = 1;".toUTF8),
    (["options.json"], .file "\x7b\"documentTitle\":\"A\"\x7d".toUTF8)], []⟩

theorem importProject_appDisk :
    appDisk.importProject "app" = .ok (.ofFiles [("a.js", "let a = 1;")]) := by
  have hfind : appDisk.find "app" = .ok (["app"], .folder) := by decide
  have hbelow : appDisk.below ["app"] = [(["a.js"], .file "let a = 1;".toUTF8)] := by decide
  have hopen : Disk.refusal? (Disk.pathIn "app" ["a.js"]) = none := by decide
  have hkey : Disk.keyOf ["a.js"] = "a.js" := by decide
  have htext : String.fromUTF8? "let a = 1;".toUTF8 = some "let a = 1;" :=
    Disk.fromUTF8?_eq_some_iff.mpr rfl
  rw [Disk.importProject, Disk.contents, hfind]
  dsimp only
  rw [hbelow, Project.ofEntries, Disk.unopened?, Disk.inOrder, List.mergeSort_singleton]
  simp only [List.findSome?_cons, List.findSome?_nil, List.filterMap_cons, List.filterMap_nil,
    Disk.imported?, hopen, hkey, htext, Option.isSome_none, Bool.false_eq_true, if_false,
    Option.map_some]

/-- The page is written into the folder that is imported. -/
theorem run_build_appDisk :
    let args := buildArgs "app" (some "app/page.html") (some "options.json")
    (run .ofDisk args appDisk).1.exitCode = 0 ∧
      ∃ preview, Makes appDisk "app" (some "options.json") preview ∧
        (run .ofDisk args appDisk).1.output = "" ∧
        (run .ofDisk args appDisk).2.readText "app/page.html" = .ok preview.document.html := by
  intro args
  obtain ⟨hline, hruns⟩ := run_build appDisk "app" (some "app/page.html") (some "options.json")
  have hargs : request? args = _ := hline (by decide) (by simp; decide) (by simp; decide)
  obtain ⟨hiff, hdelivers⟩ := (hruns args _ _ rfl).2 hargs
  have hread : appDisk.readText "options.json" = .ok "\x7b\"documentTitle\":\"A\"\x7d" := by
    decide +kernel
  have hparse : Options.ofJson? "\x7b\"documentTitle\":\"A\"\x7d" =
      .ok { documentTitle := "A" } := by
    decide +kernel
  have hvalid : ({ documentTitle := "A" } : Options).validate = .ok () := by decide
  have hscripts : (Project.ofFiles [("a.js", "let a = 1;")]).scripts ≠ [] := by decide
  have hbuild := Preview.build_eq_ok_iff.mpr
    ⟨_, Bundle.build_eq_ok_iff.mpr ⟨hvalid, hscripts, rfl⟩, rfl⟩
  have hmakes : Makes appDisk "app" (some "options.json") _ :=
    ⟨_, _, ⟨_, hread, hparse⟩, importProject_appDisk, hbuild⟩
  have hwrite : appDisk.CanWrite "app/page.html" :=
    ⟨.absent ["app", "page.html"], _, by decide, rfl⟩
  have hcode := hiff.mpr ⟨⟨_, hmakes⟩, by simpa using hwrite⟩
  obtain ⟨preview, hpreview, houtput, hwrote⟩ := hdelivers hcode
  exact ⟨hcode, preview, hpreview, houtput, hwrote.readText⟩

end LivePreview.Command
