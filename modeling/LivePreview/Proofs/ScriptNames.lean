/-
  LivePreview.Proofs.ScriptNames

  Which files take part in a build.

  A path is cut at its last dot, wherever that stands, and yet only the name of the file
  counts (`Path.hasScriptExtension_iff_name`): an extension of scripts has no slash in it, so
  a dot that has one behind it stands in a folder's name, and a dot right behind a slash has
  an empty name before it.
-/

import LivePreview.Proofs.RecordedNames

namespace LivePreview

namespace Path

variable {path : String}

/-- The ends of the names of script files. -/
def scriptEnds : List String := [".js", ".jsx", ".ts", ".tsx"]

theorem mem_scriptEnds_iff {e : String} :
    e ∈ scriptEnds ↔ ∃ extension ∈ scriptExtensions, e = "." ++ extension := by
  have hends : scriptEnds = scriptExtensions.map ("." ++ ·) := by decide
  rw [hends, List.mem_map]
  simp only [eq_comm]

/-- The dot of such an end is the last of the path, and the path holds something before it
    that is no folder. -/
theorem hasScriptExtension_iff : hasScriptExtension path = true ↔
    ∃ stem, ∃ e ∈ scriptEnds, path = stem ++ e ∧ stem ≠ "" ∧
      stem.toList.getLast? ≠ some '/' := by
  have hdots : ∀ extension ∈ scriptExtensions, '.' ∉ extension.toList := by decide
  unfold hasScriptExtension
  constructor
  · split
    · next stem extension hsplit =>
      simp only [Bool.and_eq_true, Bool.not_eq_true', List.contains_iff_mem, bne_iff_ne]
      rintro ⟨⟨hstem, hslash⟩, hextension⟩
      have hpath := (Text.splitLast_eq_some_iff.mp hsplit).1
      refine ⟨String.ofList stem, "." ++ String.ofList extension,
        mem_scriptEnds_iff.mpr ⟨_, hextension, rfl⟩, ?_, ?_, ?_⟩
      · rw [← String.toList_inj, hpath]
        simp
      · rintro hempty
        rw [String.ofList_eq_empty_iff] at hempty
        simp [hempty] at hstem
      · rwa [String.toList_ofList]
    · intro h
      cases h
  · rintro ⟨stem, e, he, rfl, hstem, hslash⟩
    obtain ⟨extension, hextension, rfl⟩ := mem_scriptEnds_iff.mp he
    have hchars : (stem ++ ("." ++ extension)).toList = stem.toList ++ '.' :: extension.toList := by
      simp
    rw [hchars, Text.splitLast_append (hdots extension hextension)]
    simp [hstem, hslash, hextension, bne_iff_ne]

/-- Only the name counts: it has an end of scripts, and something before that. -/
theorem hasScriptExtension_iff_name : hasScriptExtension path = true ↔
    ∃ stem, stem ≠ "" ∧ ∃ e ∈ scriptEnds, name path = stem ++ e := by
  have hslashes : ∀ e ∈ scriptEnds, '/' ∉ e.toList := by decide
  rw [hasScriptExtension_iff]
  constructor
  · rintro ⟨stem, e, he, rfl, hstem, hslash⟩
    refine ⟨name stem, fun hempty => ?_, e, he, name_append (hslashes e he) stem⟩
    exact (getLast?_of_name_eq_empty hempty).elim hstem hslash
  · rintro ⟨stem, hstem, e, he, hname⟩
    obtain ⟨hnot, hpath⟩ := name_cases path
    have hstemNot : '/' ∉ stem.toList := by
      rw [hname, String.toList_append, List.mem_append, not_or] at hnot
      exact hnot.1
    rw [hname] at hpath
    rcases hpath with hpath | ⟨folder, hpath⟩
    · exact ⟨stem, e, he, hpath, hstem, fun hlast => hstemNot (List.mem_of_getLast? hlast)⟩
    · rw [← String.append_assoc] at hpath
      refine ⟨folder ++ "/" ++ stem, e, he, hpath, ?_, ?_⟩
      · simp [hstem]
      · have hchars : stem.toList ≠ [] := by simpa using hstem
        rw [String.toList_append, List.getLast?_append_of_ne_nil _ hchars]
        exact fun hlast => hstemNot (List.mem_of_getLast? hlast)

/-- A path with the name of a script marks no folder. -/
theorem isMarker_of_hasScriptExtension (h : hasScriptExtension path = true) :
    isMarker path = false := by
  have hends : ∀ e ∈ scriptEnds, ¬ e.toList <:+ markerName.toList := by decide
  obtain ⟨stem, -, e, he, hname⟩ := hasScriptExtension_iff_name.mp h
  rw [isMarker, beq_eq_false_iff_ne, hname]
  intro hmarker
  exact hends e he ⟨stem.toList, by rw [← hmarker, String.toList_append]⟩

theorem getLast?_of_hasScriptExtension (h : hasScriptExtension path = true) :
    path.toList.getLast? ≠ some '/' := by
  obtain ⟨stem, hstem, e, -, hname⟩ := hasScriptExtension_iff_name.mp h
  intro hslash
  -- Behind a slash at the end there is no name.
  obtain ⟨before, hpath⟩ := List.getLast?_eq_some_iff.mp hslash
  have hcut : path = String.ofList before ++ "/" ++ "" := by
    rw [← String.toList_inj, hpath]
    simp
  rw [hcut, name_append_slash (by decide)] at hname
  exact hstem (String.append_eq_empty_iff.mp hname.symm).1

end Path

theorem File.isAnalyzable_iff {f : File} : f.isAnalyzable = true ↔
    (∃ c ∈ f.content.toList, Text.isBlank c = false) ∧ Path.hasScriptExtension f.path = true := by
  rw [File.isAnalyzable, Bool.and_eq_true, and_comm, Text.isBlankText, Bool.not_eq_true',
    List.all_eq_false]
  simp only [Bool.not_eq_true]

/-- The modules of a bundle are made of files that take part in a build. -/
theorem Bundle.hasScriptExtension_of_mem {options : Options} {project : Project} {b : Bundle}
    (hbuild : build options project = .ok b) {path : String}
    (hpath : path ∈ b.modules.map (·.path) ++ b.stripped.map (·.path)) :
    Path.hasScriptExtension path = true := by
  have hscripts : path ∈ project.scripts.map File.path := by
    rw [modules_eq hbuild, stripped_eq_map hbuild, List.map_map, List.map_map,
      List.mem_append] at hpath
    exact hpath.elim id id
  obtain ⟨f, hf, rfl⟩ := List.mem_map.mp hscripts
  exact (File.isAnalyzable_iff.mp (List.mem_filter.mp hf).2).2

/-- A file takes part in a build exactly if it holds more than white space and its name, the
    text behind the last slash of its path, has an end of scripts with something before it.
    What the folders are called makes no difference, and no module of a bundle comes from a
    marker of a folder or from a path that ends in a slash. -/
theorem File.isAnalyzable_by_name :
    (∀ path content : String, (File.mk path content).isAnalyzable = true ↔
      (∃ c ∈ content.toList, Text.isBlank c = false) ∧
        ∃ stem, stem ≠ "" ∧ ∃ e ∈ [".js", ".jsx", ".ts", ".tsx"], Path.name path = stem ++ e) ∧
    (∀ file : String, '/' ∉ file.toList → Path.name file = file ∧ ∀ folder content : String,
      Path.name (folder ++ "/" ++ file) = file ∧
        (File.mk (folder ++ "/" ++ file) content).isAnalyzable =
          (File.mk file content).isAnalyzable) ∧
    (∀ (options : Options) (project : Project) (b : Bundle),
      Bundle.build options project = .ok b →
        ∀ path ∈ b.modules.map (·.path) ++ b.stripped.map (·.path),
          Path.isMarker path = false ∧ path.toList.getLast? ≠ some '/') := by
  have hiff : ∀ path content : String, (File.mk path content).isAnalyzable = true ↔
      (∃ c ∈ content.toList, Text.isBlank c = false) ∧
        ∃ stem, stem ≠ "" ∧ ∃ e ∈ Path.scriptEnds, Path.name path = stem ++ e := by
    intro path content
    rw [File.isAnalyzable_iff, Path.hasScriptExtension_iff_name]
  refine ⟨hiff, fun file hfile => ⟨Path.name_of_not_mem hfile, fun folder content => ?_⟩, ?_⟩
  · have hname := Path.name_append_slash hfile folder
    refine ⟨hname, Bool.eq_iff_iff.mpr ?_⟩
    rw [hiff, hiff, hname, Path.name_of_not_mem hfile]
  · intro options project b hbuild path hpath
    have hscript := Bundle.hasScriptExtension_of_mem hbuild hpath
    exact ⟨Path.isMarker_of_hasScriptExtension hscript,
      Path.getLast?_of_hasScriptExtension hscript⟩

/-- Files with dots and slashes all over their paths; one of them is a script. -/
def dottedProject : Project :=
  .ofFiles [("lib.d/app.min.js", "x"), ("lib.js/.folder", "x"), ("lib.ts/", "x"),
    ("lib.d/.js", "x"), ("lib.js/readme", "x"), ("a.jsx", " \n")]

theorem File.isAnalyzable_by_name_dottedProject :
    ('/' ∉ "app.min.js".toList ∧ Path.name ("lib.d" ++ "/" ++ "app.min.js") = "app.min.js" ∧
      (File.mk ("lib.d" ++ "/" ++ "app.min.js") "x").isAnalyzable =
        (File.mk "app.min.js" "x").isAnalyzable) ∧
    ∃ b, Bundle.build {} dottedProject = .ok b ∧ b.modules.map (·.path) = ["lib.d/app.min.js"] ∧
      ∀ path ∈ b.modules.map (·.path) ++ b.stripped.map (·.path),
        Path.isMarker path = false ∧ path.toList.getLast? ≠ some '/' := by
  obtain ⟨-, hname, hmodules⟩ := File.isAnalyzable_by_name
  have hfile : '/' ∉ "app.min.js".toList := by decide
  have hscripts : dottedProject.scripts = [⟨"lib.d/app.min.js", "x"⟩] := by decide
  obtain ⟨b, hbuild⟩ : ∃ b, Bundle.build {} dottedProject = .ok b :=
    ⟨_, Bundle.build_eq_ok_iff.mpr ⟨Options.validate_default, by rw [hscripts]; simp, rfl⟩⟩
  refine ⟨⟨hfile, (hname _ hfile).2 "lib.d" "x"⟩, b, hbuild, ?_, hmodules _ _ b hbuild⟩
  rw [Bundle.modules_eq hbuild, hscripts]
  rfl

end LivePreview
