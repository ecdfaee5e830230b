/-
  LivePreview.Proofs.ReexportedTree

  Folders that become a project and are written again.

  Folders are not stored in a project.  But every folder of a tree has, further down or
  right there, a file or a folder with nothing in it, and these become keys.  So exporting
  what was imported makes the same tree (`exportProject_importProject`), as long as its
  paths are taken behind both folders (`exportProject_longTarget`).
-/

import LivePreview.Proofs.Exporting
import LivePreview.Proofs.Importing

namespace LivePreview

namespace Disk

open LivePreview.Path

variable {d d' : Disk} {source target : String} {place out : Place}
  {entries : List (Place × Entry)}

/-- The files of a project that was imported. -/
def filesOf (imported : List (String × String)) : List File := imported.map fun f => ⟨f.1, f.2⟩

theorem mem_filesOf {imported : List (String × String)} {f : File} :
    f ∈ filesOf imported ↔ (f.path, f.content) ∈ imported := by
  simp only [filesOf, List.mem_map]
  constructor
  · rintro ⟨file, hfile, rfl⟩
    exact hfile
  · exact fun hmem => ⟨_, hmem, rfl⟩

/-- What was imported from a tree makes the same tree when it is exported. -/
theorem Exported.mem_below_iff_of_imported (hread : Readable source entries)
    (h : Exported d out (filesOf (importedFiles source entries)) d') {e : Place × Entry} :
    e ∈ d'.below out ↔ e ∈ entries := by
  obtain ⟨s, entry⟩ := e
  constructor
  · intro hmem
    have hne := (h.isTree.below out).ne_nil _ hmem
    obtain ⟨f, hf, ⟨rfl, hneeds⟩ | ⟨rfl, hplace⟩⟩ := h.exists_file hmem
    · exact hread.folder_mem (mem_filesOf.mp hf) hne hneeds
    · obtain ⟨-, ⟨t, entry⟩, hmem', ⟨hentry, hplace'⟩ | ⟨-, hplace'⟩⟩ :=
        hread.exists_place (mem_filesOf.mp hf)
      · rw [hplace] at hplace'
        obtain rfl : s = t := (Tree.Place.mk.inj hplace').2
        exact hentry ▸ hmem'
      · rw [hplace] at hplace'
        cases hplace'
  · intro hmem
    have hne := hread.isTree.ne_nil _ hmem
    obtain rfl | ⟨text, rfl⟩ := hread.eq_folder_or_file hmem
    · -- What lies at the end of the folder, further down or right there, needs it.
      obtain ⟨⟨t, last⟩, hmem', hpre, hlast⟩ := exists_isLast hmem
      obtain rfl | ⟨text, rfl⟩ := hread.eq_folder_or_file hmem'
      · have hfile := (hread.mem_importedFiles _ _).mpr (.inr ⟨t, hmem', hlast, rfl, rfl⟩)
        have hplace := (hread.placeOf_marker hmem').2
        exact h.folder_mem (f := ⟨_, _⟩) (mem_filesOf.mpr hfile) hne
          (hplace ▸ Tree.needs_folder_iff.mpr hpre)
      · have hfile := (hread.mem_importedFiles _ _).mpr (.inl ⟨t, hmem', rfl⟩)
        have hplace := (hread.placeOf_file hmem').2
        refine h.folder_mem (f := ⟨_, _⟩) (mem_filesOf.mpr hfile) hne
          (hplace ▸ ⟨hpre, fun heq => ?_⟩)
        dsimp only at heq
        subst heq
        cases hread.isTree.unique hmem hmem'
    · have hfile := (hread.mem_importedFiles _ _).mpr (.inl ⟨s, hmem, rfl⟩)
      exact h.file_mem (f := ⟨_, _⟩) (mem_filesOf.mpr hfile) hne (hread.placeOf_file hmem).2

/-- A tree of folders and text files, read as a project and written into an empty folder,
    is there again, as it was. -/
theorem exportProject_importProject (hd : WellFormed d)
    (hsource : d.find source = .ok (place, .folder)) (htarget : d.find target = .ok (out, .folder))
    (hempty : d.below out = [])
    (htext : ∀ e ∈ d.below place, e.2 = .folder ∨ ∃ text : String, e.2 = .file text.toUTF8)
    (hunmarked : ∀ e ∈ d.below place, e.2 ≠ .folder → e.1.getLast? ≠ some markerName)
    (hopen : ∀ e ∈ d.below place,
      refusal? (pathIn source e.1) = none ∧ refusal? (pathIn target e.1) = none) :
    ∃ p d', d.importProject source = .ok p ∧ d.exportProject target p = (.ok (), d') ∧
      d'.find target = .ok (out, .folder) ∧ (d'.below out).Perm (d.below place) := by
  obtain ⟨m, hfrom⟩ := exists_opens_of_find hd hsource
  obtain ⟨n, hto⟩ := exists_opens_of_find hd htarget
  have hread : Readable source (d.below place) :=
    ⟨hd.isTree.below place, htext, hunmarked, fun e he => (hopen e he).1⟩
  have hvalues : (Project.ofFiles (importedFiles source (d.below place))).files.values =
      filesOf (importedFiles source (d.below place)) := by
    rw [Table.values, hread.entries_ofFiles, List.map_map]
    rfl
  have hpaths : (filesOf (importedFiles source (d.below place))).map File.path =
      (importedFiles source (d.below place)).map Prod.fst := by
    rw [filesOf, List.map_map]
    rfl
  have htakes : ∀ f ∈ filesOf (importedFiles source (d.below place)),
      Takes target (Tree.placeOf f.path).segments := by
    intro f hf
    obtain ⟨-, e, hmem, hplace⟩ := hread.exists_place (mem_filesOf.mp hf)
    have hsegments : (Tree.placeOf f.path).segments = e.1 := by
      rcases hplace with ⟨-, hplace⟩ | ⟨-, hplace⟩ <;> rw [hplace]
    rw [hsegments]
    exact ⟨(hopen e hmem).2, fun s hs => (hread.isTree.names e hmem s hs).size_le⟩
  obtain ⟨d', hexport, hexported⟩ := hto.exists_exported hd.isTree hempty
    (by rw [hpaths]; exact hread.cleanKeys) (by rw [hpaths]; exact hread.nodup_keys) htakes
  have hto' : Opens d' target out n :=
    hto.mono hexported.here (hexported.get?_eq_some hempty)
  refine ⟨_, d', hfrom.importProject hread, ?_, hto'.find, ?_⟩
  · rw [exportProject, hvalues]
    exact hexport
  · rw [List.perm_ext_iff_of_nodup (hexported.isTree.nodup_below out) (hd.isTree.nodup_below place)]
    exact fun e => hexported.mem_below_iff_of_imported hread

/-- A folder with files and with an empty folder further down. -/
def nestedDisk : Disk :=
  ((((⟨[(["d"], .folder)], ["d"]⟩ : Disk).put ["d", "a"] .folder).put ["d", "a", "e"] .folder).put
    ["d", "a", "x.js"] (.file "1".toUTF8)).put ["d", "a-b"] (.file "é".toUTF8)

theorem wellFormed_nestedDisk : WellFormed nestedDisk := by
  have h := isTree_nil.put (d := ⟨[], ["d"]⟩) [] "d" .folder (by decide) rfl rfl
  have h := h.put ["d"] "a" .folder (by decide) (by decide) (by decide)
  have h := h.put ["d", "a"] "e" .folder (by decide) (by decide) (by decide)
  have h := h.put ["d", "a"] "x.js" (.file "1".toUTF8) (by decide) (by decide) (by decide)
  have h := h.put ["d"] "a-b" (.file "é".toUTF8) (by decide) (by decide) (by decide)
  exact ⟨h, by decide⟩

/-- The tree is written into the empty folder in it. -/
theorem exportProject_importProject_nestedDisk :
    let tree := [(["a"], Entry.folder), (["a", "e"], .folder), (["a", "x.js"], .file "1".toUTF8),
      (["a-b"], .file "é".toUTF8)]
    (nestedDisk.find "." = .ok (["d"], .folder) ∧ nestedDisk.below ["d"] = tree ∧
        nestedDisk.find "/d/a//e/." = .ok (["d", "a", "e"], .folder) ∧
        nestedDisk.below ["d", "a", "e"] = []) ∧
      ∃ p d', nestedDisk.importProject "." = .ok p ∧
        nestedDisk.exportProject "/d/a//e/." p = (.ok (), d') ∧
        (d'.below ["d", "a", "e"]).Perm tree := by
  intro tree
  have hsource : nestedDisk.find "." = .ok (["d"], .folder) := by decide
  have htree : nestedDisk.below ["d"] = tree := by decide
  have htarget : nestedDisk.find "/d/a//e/." = .ok (["d", "a", "e"], .folder) := by decide
  have hempty : nestedDisk.below ["d", "a", "e"] = [] := by decide
  have htext : ∀ e ∈ nestedDisk.below ["d"],
      e.2 = .folder ∨ ∃ text : String, e.2 = .file text.toUTF8 := by
    intro e he
    simp only [htree, tree, List.mem_cons, List.not_mem_nil, or_false] at he
    rcases he with rfl | rfl | rfl | rfl
    · exact .inl rfl
    · exact .inl rfl
    · exact .inr ⟨"1", rfl⟩
    · exact .inr ⟨"é", rfl⟩
  obtain ⟨p, d', himport, hexport, -, hperm⟩ := exportProject_importProject wellFormed_nestedDisk
    hsource htarget hempty htext (by decide) (by decide)
  exact ⟨⟨hsource, htree, htarget, hempty⟩, p, d', himport, hexport, htree ▸ hperm⟩

/-! ## Paths that are too long -/

/-- So many slashes. -/
def slashes (n : Nat) : String := String.ofList (List.replicate n '/')

theorem eq_of_mem_slashes {n : Nat} {c : Char} (h : c ∈ (slashes n).toList) : c = '/' := by
  rw [slashes, String.toList_ofList] at h
  exact List.eq_of_mem_replicate h

theorem utf8ByteSize_slashes (n : Nat) : (slashes n).utf8ByteSize = n := by
  induction n with
  | zero => rfl
  | succ n ih =>
    have hcons : slashes (n + 1) = "/" ++ slashes n := by
      rw [← String.toList_inj]
      simp [slashes, List.replicate_succ]
    rw [hcons, String.utf8ByteSize_append, ih, Nat.add_comm]
    rfl

theorem names_append_slashes (path : String) (n : Nat) :
    names (path ++ slashes n) = names path := by
  have hslashes : ∀ c ∈ List.replicate n '/', c = '/' := fun c hc => List.eq_of_mem_replicate hc
  rw [names, slashes, String.toList_append, String.toList_ofList,
    filter_splitOn_append_slashes _ hslashes, names]

/-- A folder with one folder in it, and an empty folder. -/
def shortDisk : Disk :=
  ((⟨[(["from"], .folder)], []⟩ : Disk).put ["from", "folder"] .folder).put ["to"] .folder

theorem wellFormed_shortDisk : WellFormed shortDisk := by
  have h := isTree_nil.put (d := ⟨[], []⟩) [] "from" .folder (by decide) rfl rfl
  have h := h.put ["from"] "folder" .folder (by decide) (by decide) (by decide)
  exact ⟨h.put [] "to" .folder (by decide) rfl (by decide), rfl⟩

/-- The path of the empty folder, with many slashes behind it. -/
def longTarget : String := "/to" ++ slashes 4090

theorem zero_not_mem_longTarget : '\x00' ∉ longTarget.toList := by
  rw [longTarget, String.toList_append, List.mem_append, not_or]
  exact ⟨by decide, fun hmem => absurd (eq_of_mem_slashes hmem) (by decide)⟩

theorem find_longTarget_of_get? (h : d.get? ["to"] = some .folder) :
    d.find longTarget = .ok (["to"], .folder) := by
  have hdown : Leads d 40 [] ["to"] 40 ["to"] := by
    refine leads_down (by decide) fun above hne hpre => ?_
    have hsingle : above = ["to"] := hpre.eq_of_length_le (List.length_pos_iff.mpr hne)
    rw [hsingle]
    exact h
  have hopens : Opens d longTarget ["to"] 40 := by
    refine ⟨refusal?_eq_none_iff.mpr ⟨?_, ?_, ?_⟩, h, ?_⟩
    · exact zero_not_mem_longTarget
    · simp [longTarget]
    · rw [longTarget, String.utf8ByteSize_append, utf8ByteSize_slashes]
      decide
    · rw [longTarget, names_append_slashes]
      have hnames : names "/to" = ["to"] := by decide
      have horigin : origin d.here ("/to" ++ slashes 4090) = [] := by
        simp [origin, isAbsolute]
      rw [hnames, horigin]
      exact hdown
  exact hopens.find

theorem find_longTarget : shortDisk.find longTarget = .ok (["to"], .folder) :=
  find_longTarget_of_get? (by decide)

/-- The path of the folder, behind that of the empty folder, is too long. -/
theorem refusal?_longTarget : refusal? (joinPath longTarget "folder") = some .tooLong := by
  have hjoin : joinPath longTarget "folder" = longTarget ++ "folder" ∨
      joinPath longTarget "folder" = longTarget ++ "/" ++ "folder" := by
    rw [joinPath_eq (by simp [longTarget]) (by decide)]
    split
    · exact .inl rfl
    · exact .inr rfl
  have hsize : longTarget.utf8ByteSize = 4093 := by
    rw [longTarget, String.utf8ByteSize_append, utf8ByteSize_slashes]
    rfl
  have hname : "folder".utf8ByteSize = 6 := by decide
  refine refusal?_eq_tooLong ?_ ?_
  · rcases hjoin with hjoin | hjoin <;> rw [hjoin] <;>
      simp [zero_not_mem_longTarget]
  · rcases hjoin with hjoin | hjoin <;> rw [hjoin] <;>
      simp only [String.utf8ByteSize_append, hsize, hname, maxPathBytes] <;> decide

/-- A tree of one folder is read, but it cannot be written where its path is too long. -/
theorem exportProject_longTarget :
    (WellFormed shortDisk ∧ shortDisk.find "/from" = .ok (["from"], .folder) ∧
        shortDisk.find longTarget = .ok (["to"], .folder) ∧ shortDisk.below ["to"] = [] ∧
        shortDisk.below ["from"] = [(["folder"], .folder)]) ∧
      ∃ p, shortDisk.importProject "/from" = .ok p ∧
        shortDisk.exportProject longTarget p =
          (.error (.io (joinPath longTarget "folder") Refusal.tooLong.message), shortDisk) := by
  have hfind : shortDisk.find "/from" = .ok (["from"], .folder) := by decide
  have hbelow : shortDisk.below ["from"] = [(["folder"], .folder)] := by decide
  have hread : Readable "/from" (shortDisk.below ["from"]) := by
    refine ⟨wellFormed_shortDisk.isTree.below ["from"], ?_, by decide, by decide⟩
    simp [hbelow]
  refine ⟨⟨wellFormed_shortDisk, hfind, find_longTarget, by decide, hbelow⟩,
    .ofFiles [("folder/.folder", "")], ?_, ?_⟩
  · rw [importProject, contents, hfind]
    dsimp only
    rw [hread.ofEntries, hbelow, importedFiles, inOrder, List.mergeSort_singleton]
    rfl
  · have hsingle : ofSegments ["folder"] = "folder" := by decide
    have hroot : longTarget ≠ "" := by simp [longTarget]
    have hup := parent?_joinPath_singleton hroot (show IsStep "folder" by decide)
    rw [hsingle] at hup
    have hmarked : markedFolder? "folder/.folder" = some "folder" := by decide
    have hcontained : isContained "folder/.folder" = true := by decide
    have hfile : shortDisk.exportFile longTarget ⟨"folder/.folder", ""⟩ =
        (.error (.io (joinPath longTarget "folder") Refusal.tooLong.message), shortDisk) := by
      rw [exportFile, if_pos hcontained, hmarked]
      dsimp only
      rw [exportFolder, makeFolders_of_tooLong refusal?_longTarget hup]
      rfl
    have hvalues : (Project.ofFiles [("folder/.folder", "")]).files.values =
        [⟨"folder/.folder", ""⟩] := rfl
    rw [exportProject, hvalues, exportFiles, hfile]

end Disk

end LivePreview
