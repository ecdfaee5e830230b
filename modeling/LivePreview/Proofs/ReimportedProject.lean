/-
  LivePreview.Proofs.ReimportedProject

  Projects that go into an empty folder and come back.

  An exported folder holds the files of the project and the folders that its keys need.
  So an import gives the files back, in the order of their segments, and of the markers
  those whose folder holds nothing else (`importProject_exportProject`).
-/

import LivePreview.Proofs.ByteOrder
import LivePreview.Proofs.Exporting
import LivePreview.Proofs.Importing
import LivePreview.Proofs.OpenedProject

namespace LivePreview

namespace Disk

open LivePreview.Path

variable {d d' : Disk} {root : String} {place s : Place} {files : List File}

/-! ## What an exported folder is imported as -/

/-- Files of clean keys, all taken behind a root, leave a tree that can be read there. -/
theorem Exported.readable (h : Exported d place files d')
    (hkeys : CleanKeys (files.map File.path)) (hroot : root ≠ "")
    (htakes : ∀ f ∈ files, Takes root (Tree.placeOf f.path).segments) :
    Readable root (d'.below place) := by
  have hclean : ∀ f ∈ files, IsClean f.path := fun f hf => hkeys.clean _ (List.mem_map_of_mem hf)
  refine ⟨h.isTree.below place, ?_, ?_, ?_⟩
  · intro e hmem
    obtain ⟨f, -, ⟨hfolder, -⟩ | ⟨hfile, -⟩⟩ := h.exists_file hmem
    · exact .inl hfolder
    · exact .inr ⟨f.content, hfile⟩
  · intro e hmem hfile hlast
    obtain ⟨f, hf, ⟨hfolder, -⟩ | ⟨-, hplace⟩⟩ := h.exists_file hmem
    · exact hfile hfolder
    · obtain ⟨hmarker, hsegments⟩ := of_placeOf_eq_file hplace
      rw [← hsegments, ← (hclean f hf).isMarker_iff, hmarker] at hlast
      cases hlast
  · intro e hmem
    have hne := (h.isTree.below place).ne_nil e hmem
    obtain ⟨f, hf, hpre⟩ := h.exists_isPrefix hmem
    exact ((htakes f hf).of_isPrefix hroot (fun t ht => (hclean f hf).isStep t
      ((placeOf_segments_isPrefix f.path).subset ht)) hpre hne).refusal

/-- What needs a folder with nothing in it is there for the folder alone. -/
theorem Exported.placeOf_eq_of_isLast (h : Exported d place files d') {f : File} (hf : f ∈ files)
    (hclean : IsClean f.path) (hlast : IsLast (d'.below place) s)
    (hneeds : (Tree.placeOf f.path).Needs s .folder) : Tree.placeOf f.path = ⟨.folder, s⟩ := by
  have hne := hclean.placeOf_ne_nil
  -- What is needed further down would be found there.
  have hend : (Tree.placeOf f.path).segments = s := by
    cases hplace : Tree.placeOf f.path with
    | mk kind segments =>
      rw [hplace] at hne hneeds
      cases kind with
      | folder =>
        have hneeded : (Tree.placeOf f.path).Needs segments .folder :=
          hplace ▸ Tree.needs_folder_iff.mpr (List.prefix_refl _)
        exact hlast _ (h.folder_mem hf hne hneeded) hneeds.1
      | file => exact hlast _ (h.file_mem hf hne hplace) hneeds.1
  have hkind := hneeds.2 hend
  rw [← hend, ← hkind]

/-- A folder holds nothing exactly if it is there for one key only, its marker. -/
theorem Exported.isLast_iff (h : Exported d place files d')
    (hkeys : CleanKeys (files.map File.path)) (hne : s ≠ []) :
    (s, .folder) ∈ d'.below place ∧ IsLast (d'.below place) s ↔
      ∃ f ∈ files, Tree.placeOf f.path = ⟨.folder, s⟩ ∧
        ∀ g ∈ files, (Tree.placeOf g.path).Needs s .folder → g.path = f.path := by
  have hclean : ∀ f ∈ files, IsClean f.path := fun f hf => hkeys.clean _ (List.mem_map_of_mem hf)
  constructor
  · rintro ⟨hmem, hlast⟩
    have honly : ∀ g ∈ files, (Tree.placeOf g.path).Needs s .folder →
        Tree.placeOf g.path = ⟨.folder, s⟩ :=
      fun g hg hneeds => h.placeOf_eq_of_isLast hg (hclean g hg) hlast hneeds
    obtain ⟨f, hf, ⟨-, hneeds⟩ | ⟨hfile, -⟩⟩ := h.exists_file hmem
    · refine ⟨f, hf, honly f hf hneeds, fun g hg hneeds' => ?_⟩
      refine (hclean g hg).eq_of_placeOf (hclean f hf) ?_
      rw [honly f hf hneeds, honly g hg hneeds']
    · cases hfile
  · rintro ⟨f, hf, hplace, honly⟩
    have hneeded : (Tree.placeOf f.path).Needs s .folder :=
      hplace ▸ Tree.needs_folder_iff.mpr (List.prefix_refl s)
    refine ⟨h.folder_mem hf hne hneeded, fun e hmem hpre => ?_⟩
    by_contra hdiff
    obtain ⟨g, hg, hpre'⟩ := h.exists_isPrefix hmem
    -- Its key needs the folder as well, so it is the marker, which needs nothing below it.
    have hsame : g.path = f.path := by
      refine honly g hg ⟨hpre.trans hpre', fun heq => ?_⟩
      rw [heq] at hpre'
      exact absurd (hpre'.eq_of_length_le hpre.length_le) hdiff
    rw [hsame, hplace] at hpre'
    exact hdiff (hpre'.eq_of_length_le hpre.length_le)

/-- The files in the exported folder are those under keys that mark no folder. -/
theorem Exported.exists_file_iff (h : Exported d place files d')
    (hkeys : CleanKeys (files.map File.path)) (key content : String) :
    (∃ s, (s, .file content.toUTF8) ∈ d'.below place ∧ key = ofSegments s) ↔
      isMarker key = false ∧ ⟨key, content⟩ ∈ files := by
  have hclean : ∀ f ∈ files, IsClean f.path := fun f hf => hkeys.clean _ (List.mem_map_of_mem hf)
  constructor
  · rintro ⟨s, hmem, rfl⟩
    obtain ⟨f, hf, ⟨hfolder, -⟩ | ⟨hfile, hplace⟩⟩ := h.exists_file hmem
    · cases hfolder
    · obtain ⟨hmarker, hsegments⟩ := of_placeOf_eq_file hplace
      have hpath : ofSegments s = f.path := by
        rw [← (hclean f hf).ofSegments_segments, hsegments]
      have hcontent : content = f.content := String.toByteArray_inj.mp (Entry.file.inj hfile)
      rw [hpath, hcontent]
      exact ⟨hmarker, hf⟩
  · rintro ⟨hmarker, hf⟩
    have hf' := hclean _ hf
    exact ⟨segments key, h.file_mem hf hf'.segments_ne_nil (placeOf_of_not_isMarker hmarker),
      hf'.ofSegments_segments.symm⟩

/-- The folders with nothing in them are those that their marker alone needs. -/
theorem Exported.exists_emptyFolder_iff (h : Exported d place files d')
    (hkeys : CleanKeys (files.map File.path)) (key : String) :
    (∃ s, (s, .folder) ∈ d'.below place ∧ IsLast (d'.below place) s ∧
        key = ofSegments (s ++ [markerName])) ↔
      ∃ f ∈ files, f.path = key ∧ ∃ folder, markedFolder? key = some folder ∧
        ∀ g ∈ files, isWithin folder g.path = true → g.path = key := by
  have hclean : ∀ f ∈ files, IsClean f.path := fun f hf => hkeys.clean _ (List.mem_map_of_mem hf)
  constructor
  · rintro ⟨s, hmem, hlast, rfl⟩
    have hbelow := h.isTree.below place
    have hne := hbelow.ne_nil _ hmem
    have hs : ∀ t ∈ s, IsStep t := fun t ht => (hbelow.names _ hmem t ht).isStep
    obtain ⟨f, hf, hplace, honly⟩ := (h.isLast_iff hkeys hne).mp ⟨hmem, hlast⟩
    obtain ⟨hsegments, hfolder⟩ := (hclean f hf).of_placeOf_eq_folder hplace
    have hpath : ofSegments (s ++ [markerName]) = f.path := by
      rw [← (hclean f hf).ofSegments_segments, hsegments]
    rw [hpath]
    refine ⟨f, hf, rfl, _, hfolder, fun g hg hwithin => honly g hg ?_⟩
    exact ((hclean g hg).isWithin_iff hs hne).mp hwithin
  · rintro ⟨f, hf, rfl, folder, hfolder, honly⟩
    obtain ⟨ss, hne, hsegments, hfolder', hplace⟩ :=
      (hclean f hf).exists_marker (isMarker_of_markedFolder? hfolder)
    have hss : ∀ t ∈ ss, IsStep t := fun t ht =>
      (hclean f hf).isStep t (hsegments ▸ List.mem_append_left _ ht)
    rw [hfolder', Option.some.injEq] at hfolder
    subst hfolder
    -- Nothing else is within the folder, so it is the last place on its way.
    have hlast := (h.isLast_iff hkeys hne).mpr ⟨f, hf, hplace, fun g hg hneeds =>
      honly g hg (((hclean g hg).isWithin_iff hss hne).mpr hneeds)⟩
    refine ⟨ss, hlast.1, hlast.2, ?_⟩
    rw [← hsegments, (hclean f hf).ofSegments_segments]

/-- What the exported folder is imported as: the files under keys that mark no folder, and
    the markers of folders that hold nothing else. -/
theorem Exported.mem_importedFiles (h : Exported d place files d')
    (hkeys : CleanKeys (files.map File.path)) (hread : Readable root (d'.below place))
    (key content : String) :
    (key, content) ∈ importedFiles root (d'.below place) ↔
      (isMarker key = false ∧ ⟨key, content⟩ ∈ files) ∨
      ((∃ f ∈ files, f.path = key ∧ ∃ folder, markedFolder? key = some folder ∧
        ∀ g ∈ files, isWithin folder g.path = true → g.path = key) ∧ content = "") := by
  rw [hread.mem_importedFiles, ← h.exists_file_iff hkeys, ← h.exists_emptyFolder_iff hkeys]
  simp only [← and_assoc, exists_and_right]

/-! ## Export and import -/

section Project

variable {p : Project} {k : String} {f : File}

theorem map_path_values (h : p.files.Keyed) : p.files.values.map File.path = p.paths :=
  h.map_path_values

theorem mem_paths_iff (h : p.files.Keyed) : k ∈ p.paths ↔ ∃ f ∈ p.files.values, f.path = k := by
  rw [← map_path_values h, List.mem_map]

theorem mem_values_iff (h : p.files.Keyed) :
    f ∈ p.files.values ↔ (f.path, f) ∈ p.files.entries := by
  rw [Table.values, List.mem_map]
  constructor
  · rintro ⟨⟨k, f⟩, hmem, rfl⟩
    have hpath : f.path = k := h _ hmem
    rwa [← hpath] at hmem
  · exact fun hmem => ⟨_, hmem, rfl⟩

/-- The entries of the project that the exported folder is imported as. -/
theorem Exported.mem_entries_iff (h : Exported d place p.files.values d') (hkeyed : p.files.Keyed)
    (hkeys : CleanKeys p.paths) (hread : Readable root (d'.below place)) :
    (k, f) ∈ (Project.ofFiles (importedFiles root (d'.below place))).files.entries ↔
      (isMarker k = false ∧ (k, f) ∈ p.files.entries) ∨
      (k ∈ p.paths ∧ f = ⟨k, ""⟩ ∧ ∃ folder, markedFolder? k = some folder ∧
        ∀ other ∈ p.paths, isWithin folder other = true → other = k) := by
  rw [← map_path_values hkeyed] at hkeys
  have hmem := h.mem_importedFiles hkeys hread
  rw [hread.entries_ofFiles, List.mem_map]
  constructor
  · rintro ⟨⟨k, content⟩, hfile, heq⟩
    cases heq
    rcases (hmem k content).mp hfile with
      ⟨hmarker, hf⟩ | ⟨⟨g, hg, rfl, folder, hfolder, honly⟩, rfl⟩
    · exact .inl ⟨hmarker, (mem_values_iff hkeyed).mp hf⟩
    · refine .inr ⟨(mem_paths_iff hkeyed).mpr ⟨g, hg, rfl⟩, rfl, folder, hfolder, ?_⟩
      intro other hother hwithin
      obtain ⟨g', hg', rfl⟩ := (mem_paths_iff hkeyed).mp hother
      exact honly g' hg' hwithin
  · rintro (⟨hmarker, hf⟩ | ⟨hk, rfl, folder, hfolder, honly⟩)
    · obtain rfl : f.path = k := hkeyed _ hf
      exact ⟨_, (hmem _ f.content).mpr (.inl ⟨hmarker, (mem_values_iff hkeyed).mpr hf⟩), rfl⟩
    · obtain ⟨g, hg, rfl⟩ := (mem_paths_iff hkeyed).mp hk
      refine ⟨_, (hmem _ "").mpr (.inr ⟨⟨g, hg, rfl, folder, hfolder, ?_⟩, rfl⟩), rfl⟩
      exact fun g' hg' => honly g'.path ((mem_paths_iff hkeyed).mpr ⟨g', hg', rfl⟩)

/-- A project with clean keys, the places of which the file system takes, is written into an
    empty folder and read back from there: the files, in the order of their segments, and of
    the markers those whose folder holds nothing else. -/
theorem importProject_exportProject (hd : WellFormed d)
    (hroot : d.find root = .ok (place, .folder)) (hempty : d.below place = [])
    (hkeyed : p.files.Keyed) (hkeys : CleanKeys p.paths)
    (htakes : ∀ k ∈ p.paths, Takes root (Tree.placeOf k).segments) :
    ∃ d' q, d.exportProject root p = (.ok (), d') ∧ d'.importProject root = .ok q ∧
      (∀ k f, (k, f) ∈ q.files.entries ↔
        (isMarker k = false ∧ (k, f) ∈ p.files.entries) ∨
        (k ∈ p.paths ∧ f = ⟨k, ""⟩ ∧ ∃ folder, markedFolder? k = some folder ∧
          ∀ other ∈ p.paths, isWithin folder other = true → other = k)) ∧
      (q.paths.Pairwise fun k l => (segments k).map Text.bytes < (segments l).map Text.bytes) ∧
      q.activePath = (q.paths.find? fun k => !isMarker k).getD "" := by
  obtain ⟨m, hopens⟩ := exists_opens_of_find hd hroot
  have hpaths := map_path_values hkeyed
  have hkeys' : CleanKeys (p.files.values.map File.path) := by rwa [hpaths]
  have htakes' : ∀ f ∈ p.files.values, Takes root (Tree.placeOf f.path).segments :=
    fun f hf => htakes _ ((mem_paths_iff hkeyed).mpr ⟨f, hf, rfl⟩)
  obtain ⟨d', hexport, hexported⟩ := hopens.exists_exported hd.isTree hempty hkeys'
    (by rw [hpaths]; exact p.files.nodup_keys) htakes'
  have hread := hexported.readable hkeys' hopens.root_ne_empty htakes'
  have hopens' : Opens d' root place m :=
    hopens.mono hexported.here (hexported.get?_eq_some hempty)
  refine ⟨d', _, hexport, hopens'.importProject hread,
    fun k f => hexported.mem_entries_iff hkeyed hkeys hread, ?_, rfl⟩
  rw [Project.paths, Table.keys, hread.entries_ofFiles, List.map_map]
  exact List.pairwise_map.mpr (hread.pairwise_importedFiles.imp fun hlt => Text.map_bytes_lt hlt)

/-- An empty folder that a link leads to. -/
def linkedDisk : Disk :=
  ((⟨[(["home"], .folder)], ["home"]⟩ : Disk).put ["home", "out"] .folder).put ["home", "l"]
    (.link "./out/")

theorem wellFormed_linkedDisk : WellFormed linkedDisk := by
  have hhome := isTree_nil.put (d := ⟨[], ["home"]⟩) [] "home" .folder (by decide) rfl rfl
  have hout := hhome.put ["home"] "out" .folder (by decide) (by decide) (by decide)
  exact ⟨hout.put ["home"] "l" (.link "./out/") (by decide) (by decide) (by decide), by decide⟩

/-- Markers in one another and beside files, and names around the slash in the order. -/
def nestedProject : Project :=
  .ofFiles [("d/.folder", "x"), ("a/b", "1"), ("a.c", "2"), ("d/e/.folder", ""), ("a-b", "3"),
    ("f/.folder", ""), ("f/g.js", "4")]

/-- The keys that come back. -/
def nestedKeys : List String := ["a/b", "a-b", "a.c", "d/e/.folder", "f/g.js"]

theorem importProject_exportProject_nestedProject :
    (linkedDisk.find "l/." = .ok (["home", "out"], .folder) ∧
        linkedDisk.below ["home", "out"] = [] ∧ CleanKeys nestedProject.paths ∧
        ∀ k ∈ nestedProject.paths, Takes "l/." (Tree.placeOf k).segments) ∧
      ∃ d' q, linkedDisk.exportProject "l/." nestedProject = (.ok (), d') ∧
        d'.importProject "l/." = .ok q ∧ q.paths = nestedKeys ∧ q.activePath = "a/b" := by
  have hroot : linkedDisk.find "l/." = .ok (["home", "out"], .folder) := by decide
  have hempty : linkedDisk.below ["home", "out"] = [] := by decide
  have hkeys : CleanKeys nestedProject.paths := by decide
  have htakes : ∀ k ∈ nestedProject.paths, Takes "l/." (Tree.placeOf k).segments := by decide
  obtain ⟨d', q, hexport, himport, hmem, horder, hactive⟩ := importProject_exportProject
    wellFormed_linkedDisk hroot hempty (Table.keyed_ofList _) hkeys htakes
  refine ⟨⟨hroot, hempty, hkeys, htakes⟩, d', q, hexport, himport, ?_⟩
  have hfiles : ∀ k ∈ nestedProject.paths, isMarker k = false → k ∈ nestedKeys := by decide
  have hmarkers : ∀ k ∈ nestedProject.paths, ∀ folder ∈ markedFolder? k,
      (∀ other ∈ nestedProject.paths, isWithin folder other = true → other = k) →
        k ∈ nestedKeys := by decide
  have hback : ∀ k ∈ nestedKeys, k ∈ nestedProject.paths ∧
      (isMarker k = false ∨ ∃ folder ∈ markedFolder? k,
        ∀ other ∈ nestedProject.paths, isWithin folder other = true → other = k) := by decide
  have hsame : ∀ k, k ∈ q.paths ↔ k ∈ nestedKeys := by
    intro k
    constructor
    · intro hk
      obtain ⟨⟨k, f⟩, hf, rfl⟩ := List.mem_map.mp hk
      rcases (hmem k f).mp hf with ⟨hmarker, hf⟩ | ⟨hk, -, folder, hfolder, honly⟩
      · exact hfiles k (List.mem_map_of_mem hf) hmarker
      · exact hmarkers k hk folder hfolder honly
    · intro hk
      obtain ⟨hk, hmarker | ⟨folder, hfolder, honly⟩⟩ := hback k hk
      · obtain ⟨⟨k, f⟩, hf, rfl⟩ := List.mem_map.mp hk
        exact List.mem_map_of_mem ((hmem k f).mpr (.inl ⟨hmarker, hf⟩))
      · exact List.mem_map_of_mem ((hmem k _).mpr (.inr ⟨hk, rfl, folder, hfolder, honly⟩))
  have hnodup : q.paths.Nodup := horder.imp fun hlt heq => by
    rw [heq] at hlt
    exact List.lt_irrefl _ hlt
  have hpaths : q.paths = nestedKeys := by
    refine List.Perm.eq_of_pairwise (fun k l _ _ hkl hlk => ?_) horder (by decide)
      ((List.perm_ext_iff_of_nodup hnodup (by decide)).mpr hsame)
    exact absurd (List.lt_trans hkl hlk) (List.lt_irrefl _)
  rw [hactive, hpaths]
  exact ⟨rfl, by decide⟩

end Project

end Disk

end LivePreview
