/-
  LivePreview.Proofs.BuildOrder

  What the order of the files decides in a bundle.

  Two projects with the same files in different orders make bundles of the same parts: the
  same records and stripped modules, imports that lead to the same places, the same code for
  each import, and hints that differ in their order at most (`Bundle.SameParts`).  In either
  bundle the parts stand in the order of the project's scripts (`Bundle.InOrderOf`).
-/

import LivePreview.Proofs.BuildInputs
import LivePreview.Proofs.ModuleBoundary
import LivePreview.Proofs.OpenedProject

namespace LivePreview

open Script

/-! ## Lists with different keys -/

section Keys

variable {α : Type} {key : α → String} {as bs : List α}

theorem filter_key_eq_singleton (h : (as.map key).Nodup) {a : α} (ha : a ∈ as) :
    as.filter (key · == key a) = [a] := by
  induction as with
  | nil => cases ha
  | cons b as ih =>
    obtain ⟨hnew, hrest⟩ := List.nodup_cons.mp h
    rcases List.mem_cons.mp ha with rfl | ha
    · have hnone : as.filter (key · == key a) = [] := by
        rw [List.filter_eq_nil_iff]
        intro c hc hkey
        exact hnew (List.mem_map.mpr ⟨c, hc, beq_iff_eq.mp hkey⟩)
      rw [List.filter_cons, if_pos (beq_self_eq_true (key a)), hnone]
    · have hne : key b ≠ key a := fun heq => hnew (List.mem_map.mpr ⟨a, ha, heq.symm⟩)
      rw [List.filter_cons_of_neg (by simpa using hne), ih hrest ha]

/-- What stands under a key does not depend on the order. -/
theorem filter_key_eq_of_perm (h : (as.map key).Nodup) (hperm : as.Perm bs) (k : String) :
    as.filter (key · == k) = bs.filter (key · == k) := by
  have hfilter := hperm.filter (key · == k)
  cases hfound : as.filter (key · == k) with
  | nil =>
    rw [hfound] at hfilter
    exact hfilter.nil_eq
  | cons a found =>
    have hmem : a ∈ as.filter (key · == k) := hfound ▸ List.mem_cons_self
    obtain ⟨ha, hkey⟩ := List.mem_filter.mp hmem
    obtain rfl : key a = k := beq_iff_eq.mp hkey
    rw [filter_key_eq_singleton h ha] at hfound hfilter
    rw [← hfound]
    exact List.singleton_perm.mp hfilter

theorem find?_key_eq_of_perm (h : (as.map key).Nodup) (hperm : as.Perm bs) (k : String) :
    as.find? (key · == k) = bs.find? (key · == k) := by
  rw [← List.head?_filter, ← List.head?_filter, filter_key_eq_of_perm h hperm]

end Keys

/-! ## Scripts in another order -/

namespace Project

variable {p q : Project}

theorem scripts_perm (hperm : p.files.entries.Perm q.files.entries) :
    p.scripts.Perm q.scripts := by
  rw [scripts_eq_map_filter, scripts_eq_map_filter]
  exact (hperm.filter _).map Prod.snd

theorem nodup_path_scripts (h : p.files.Keyed) : (p.scripts.map File.path).Nodup :=
  h.nodup_path_values.sublist (List.filter_sublist.map File.path)

theorem contains_eq_of_perm (hperm : p.files.entries.Perm q.files.entries) :
    p.contains = q.contains := by
  funext path
  exact congrArg Option.isSome (Table.get?_eq_of_perm hperm path)

end Project

/-! ## The parts of a bundle -/

namespace Bundle

/-- The imports of the module with that path. -/
def importsIn (b : Bundle) (path : String) : List ResolvedImport :=
  b.imports.filter (·.importer == path)

/-- The modules, their imports and the code for these stand in the order of the scripts of the
    project, and no two scripts have one path. -/
structure InOrderOf (options : Options) (p : Project) (b : Bundle) : Prop where
  nodup_path : (p.scripts.map File.path).Nodup
  modules_path : b.modules.map (·.path) = p.scripts.map File.path
  stripped_path : b.stripped.map (·.path) = p.scripts.map File.path
  imports_eq : b.imports = p.scripts.flatMap fun f => b.importsIn f.path
  resolutionCode_eq : b.resolutionCode =
    String.join (b.imports.map (importCode b.modules options.placeholderLiteral))

/-- The bundles differ in the order of their parts only, and in the order of the hints and
    the writer that it decides. -/
structure SameParts (options : Options) (b c : Bundle) : Prop where
  modules_perm : b.modules.Perm c.modules
  stripped_perm : b.stripped.Perm c.stripped
  importsIn_eq : ∀ path, b.importsIn path = c.importsIn path
  importCode_eq : ∀ i, importCode b.modules options.placeholderLiteral i =
    importCode c.modules options.placeholderLiteral i
  definesApp_eq : b.hints.definesApp = c.hints.definesApp
  mem_candidates_iff : ∀ name,
    name ∈ b.hints.componentCandidates ↔ name ∈ c.hints.componentCandidates
  isSome_writer_eq : b.hints.sharedSlotWriter.isSome = c.hints.sharedSlotWriter.isSome

/-! ## Imports by module -/

theorem importsOf_congr {p q : Project} (h : p.contains = q.contains) :
    importsOf p = importsOf q := by
  unfold importsOf Resolution.find
  rw [h]

theorem importer_of_mem_importsOf {project : Project} {f : File} {i : ResolvedImport}
    (h : i ∈ importsOf project f) : i.importer = f.path := by
  obtain ⟨binding, -, rfl⟩ := List.mem_map.mp h
  rfl

theorem filter_importsOf (project : Project) (f : File) (path : String) :
    (importsOf project f).filter (·.importer == path) =
      if f.path == path then importsOf project f else [] := by
  split
  · next h => exact List.filter_eq_self.mpr fun i hi => importer_of_mem_importsOf hi ▸ h
  · next h => exact List.filter_eq_nil_iff.mpr fun i hi => importer_of_mem_importsOf hi ▸ h

/-- The imports of a path are those of the files with it. -/
theorem filter_flatMap_importsOf (project : Project) (files : List File) (path : String) :
    (files.flatMap (importsOf project)).filter (·.importer == path) =
      (files.filter (·.path == path)).flatMap (importsOf project) := by
  rw [List.filter_flatMap]
  simp only [filter_importsOf]
  induction files with
  | nil => rfl
  | cons f files ih =>
    rw [List.flatMap_cons, List.filter_cons, ih]
    split <;> simp

variable {options : Options} {p q : Project} {b c : Bundle}

theorem importsIn_eq (hbuild : build options p = .ok b) (path : String) :
    b.importsIn path = (p.scripts.filter (·.path == path)).flatMap (importsOf p) := by
  rw [importsIn, imports_eq hbuild, filter_flatMap_importsOf]

theorem inOrderOf (hkeyed : p.files.Keyed) (hbuild : build options p = .ok b) :
    b.InOrderOf options p := by
  have hnodup := Project.nodup_path_scripts hkeyed
  refine ⟨hnodup, ?_, ?_, ?_, resolutionCode_eq hbuild⟩
  · rw [modules_eq hbuild]
    exact List.map_map
  · rw [stripped_eq_map hbuild]
    exact List.map_map
  · rw [imports_eq hbuild]
    refine List.flatMap_congr fun f hf => ?_
    rw [importsIn_eq hbuild, filter_key_eq_singleton hnodup hf, List.flatMap_singleton]

/-! ## Exports and hints in another order -/

theorem defaultExportOf?_eq_of_perm {files files' : List File}
    (hnodup : (files.map File.path).Nodup) (hperm : files.Perm files') (path : String) :
    defaultExportOf? (files.map recordOf) path = defaultExportOf? (files'.map recordOf) path := by
  have hreverse : files.reverse.Perm files'.reverse :=
    (List.reverse_perm files).trans (hperm.trans (List.reverse_perm files').symm)
  have hnodup' : (files.reverse.map File.path).Nodup :=
    ((List.reverse_perm files).map File.path).nodup_iff.mpr hnodup
  unfold defaultExportOf?
  rw [← List.map_reverse, ← List.map_reverse, List.find?_map, List.find?_map]
  exact congrArg (fun f => (Option.map recordOf f).bind (·.defaultExport?))
    (find?_key_eq_of_perm hnodup' hreverse path)

section Hints

variable {stripped stripped' : List StrippedModule}

theorem isSome_lastWriter? (stripped : List StrippedModule) :
    (lastWriter? stripped).isSome = stripped.any (·.writesSharedSlot) := by
  rw [lastWriter?, Option.isSome_map, List.isSome_find?, List.any_reverse]

theorem occursIn_bodyOf_of_perm {pattern : Pattern} (hpattern : pattern.IsDeclaration)
    (h : ∀ m ∈ stripped, '\n' ∉ m.path.toList) (hperm : stripped.Perm stripped') :
    pattern.occursIn (bodyOf stripped).toList = pattern.occursIn (bodyOf stripped').toList := by
  rw [occursIn_bodyOf hpattern h, hperm.any_eq,
    ← occursIn_bodyOf hpattern fun m hm => h m (hperm.mem_iff.mpr hm)]

theorem mem_componentNames_bodyOf_of_perm (h : ∀ m ∈ stripped, '\n' ∉ m.path.toList)
    (hperm : stripped.Perm stripped') (name : String) :
    name ∈ componentNames (bodyOf stripped).toList ↔
      name ∈ componentNames (bodyOf stripped').toList := by
  rw [mem_componentNames_bodyOf h,
    mem_componentNames_bodyOf fun m hm => h m (hperm.mem_iff.mpr hm)]
  simp only [hperm.mem_iff]

end Hints

/-! ## Two builds -/

/-- The order of the files decides the order of the parts only. -/
theorem sameParts (hkeyed : p.files.Keyed) (hperm : p.files.entries.Perm q.files.entries)
    (hpaths : ∀ f ∈ p.scripts, '\n' ∉ f.path.toList) (hb : build options p = .ok b)
    (hc : build options q = .ok c) : b.SameParts options c := by
  have hscripts := Project.scripts_perm hperm
  have hnodup := Project.nodup_path_scripts hkeyed
  have hlookup := importsOf_congr (Project.contains_eq_of_perm hperm)
  -- The scripts are the same in another order, and the parts are made of them one by one.
  have hmodules : b.modules.Perm c.modules := by
    rw [modules_eq hb, modules_eq hc]
    exact hscripts.map recordOf
  have hstripped : b.stripped.Perm c.stripped := by
    rw [stripped_eq_map hb, stripped_eq_map hc]
    exact hscripts.map _
  have himports : b.imports.Perm c.imports := by
    rw [imports_eq hb, imports_eq hc, hlookup]
    exact hscripts.flatMap_right (importsOf q)
  have hfree : ∀ m ∈ b.stripped, '\n' ∉ m.path.toList := by
    rw [stripped_eq_map hb]
    exact List.forall_mem_map.mpr hpaths
  refine ⟨hmodules, hstripped, fun path => ?_, fun i => ?_, ?_, fun name => ?_, ?_⟩
  · rw [importsIn_eq hb, importsIn_eq hc, hlookup, filter_key_eq_of_perm hnodup hscripts]
  · rw [modules_eq hb, modules_eq hc]
    unfold importCode
    simp only [defaultExportOf?_eq_of_perm hnodup hscripts]
  · rw [hints_eq hb, hints_eq hc, hintsOf, hintsOf, himports.any_eq,
      occursIn_bodyOf_of_perm Pattern.isDeclaration_appDeclaration hfree hstripped]
  · rw [hints_eq hb, hints_eq hc]
    exact mem_componentNames_bodyOf_of_perm hfree hstripped name
  · rw [hints_eq hb, hints_eq hc, hintsOf, hintsOf, isSome_lastWriter?, isSome_lastWriter?,
      hstripped.any_eq]

/-- Projects with the same files in different orders, where a script takes part, every file has
    the path of its key, and no path holds a line feed, have bundles of the same parts, in
    either of which these stand in the order of the project. -/
theorem build_of_perm (hvalid : options.validate = .ok ()) (hkeyed : p.files.Keyed)
    (hperm : p.files.entries.Perm q.files.entries)
    (hpaths : ∀ e ∈ p.files.entries, '\n' ∉ e.2.path.toList)
    (hscript : ∃ e ∈ p.files.entries, e.2.isAnalyzable = true) :
    ∃ b c, build options p = .ok b ∧ build options q = .ok c ∧
      b.InOrderOf options p ∧ c.InOrderOf options q ∧ b.SameParts options c := by
  have hscripts := Project.scripts_perm hperm
  have hkeyed' : q.files.Keyed := fun e he => hkeyed e (hperm.mem_iff.mpr he)
  have hp : p.scripts ≠ [] := by
    obtain ⟨e, he, hfile⟩ := hscript
    exact List.ne_nil_of_mem (List.mem_filter.mpr ⟨List.mem_map_of_mem he, hfile⟩)
  have hq : q.scripts ≠ [] := fun h => hp (h ▸ hscripts).eq_nil
  have hfree : ∀ f ∈ p.scripts, '\n' ∉ f.path.toList := by
    intro f hf
    obtain ⟨key, hkey⟩ := exists_key_of_mem_scripts hf
    exact hpaths _ hkey
  have hb := build_eq_ok_iff.mpr ⟨hvalid, hp, rfl⟩
  have hc := build_eq_ok_iff.mpr ⟨hvalid, hq, rfl⟩
  exact ⟨_, _, hb, hc, inOrderOf hkeyed hb, inOrderOf hkeyed' hc,
    sameParts hkeyed hperm hfree hb hc⟩

/-- The two scripts of `twoWriters` in the other order. -/
def twoWritersSwapped : Project :=
  .ofFiles [("B.js", "import A from './A';\nexport default A;\n"),
    ("A.js", "export default function A() \x7b return null; \x7d\n")]

/-- Either bundle has the last of its modules as the writer. -/
theorem build_of_perm_twoWriters :
    ∃ b c, build {} twoWriters = .ok b ∧ build {} twoWritersSwapped = .ok c ∧
      b.InOrderOf {} twoWriters ∧ c.InOrderOf {} twoWritersSwapped ∧ b.SameParts {} c ∧
      b.hints.sharedSlotWriter = some "B.js" ∧ c.hints.sharedSlotWriter = some "A.js" := by
  have hkeyed : twoWriters.files.Keyed := by unfold Table.Keyed; decide
  have hperm : twoWriters.files.entries.Perm twoWritersSwapped.files.entries := by decide
  obtain ⟨b, c, hb, hc, hp, hq, hparts⟩ :=
    build_of_perm Options.validate_default hkeyed hperm (by decide) (by decide)
  refine ⟨b, c, hb, hc, hp, hq, hparts, ?_, ?_⟩
  · rw [sharedSlotWriter_eq hb, stripped_eq hb]
    set_option maxRecDepth 2000 in decide
  · rw [sharedSlotWriter_eq hc, stripped_eq hc]
    set_option maxRecDepth 2000 in decide

end Bundle

end LivePreview
