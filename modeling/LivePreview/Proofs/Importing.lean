/-
  LivePreview.Proofs.Importing

  What an import makes of a tree of folders and text files.

  Every file becomes a file of the project, and every folder with nothing in it a marker
  (`Readable.ofEntries`).  The keys come out in the order of their segments, which a
  marker behind the names of its folder does not change.
-/

import LivePreview.Disk.Import
import LivePreview.Proofs.CleanKeys
import LivePreview.Proofs.FolderMaking

namespace LivePreview

namespace Disk

open LivePreview.Path

/-- A tree of folders and text files, all of which can be opened behind a root, with no file
    that has the name of markers. -/
structure Readable (root : String) (entries : List (Place × Entry)) : Prop where
  isTree : IsTree entries
  text : ∀ e ∈ entries, e.2 = .folder ∨ ∃ text : String, e.2 = .file text.toUTF8
  unmarked : ∀ e ∈ entries, e.2 ≠ .folder → e.1.getLast? ≠ some markerName
  refusal : ∀ e ∈ entries, refusal? (pathIn root e.1) = none

variable {d : Disk} {root : String} {m : Nat} {entries : List (Place × Entry)} {place : Place}

/-! ## The order of names -/

/-- Names in order stay in order with more names behind them, if the first ones go no
    further than where they differ. -/
theorem append_lt_append {ss ts us : List String} (h : ss < ts) (hus : us = [] ∨ ¬ ss <+: ts)
    (vs : List String) : ss ++ us < ts ++ vs := by
  induction ss generalizing ts with
  | nil =>
    obtain rfl := hus.resolve_right (by simp)
    cases ts with
    | nil => exact absurd h (List.not_lt_nil [])
    | cons t ts => exact List.nil_lt_cons t _
  | cons s ss ih =>
    cases ts with
    | nil => exact absurd h (List.not_lt_nil _)
    | cons t ts =>
      rw [List.cons_append, List.cons_append, List.cons_lt_cons_iff]
      rcases List.cons_lt_cons_iff.mp h with hlt | ⟨rfl, hlt⟩
      · exact .inl hlt
      · exact .inr ⟨rfl, ih hlt (hus.imp_right fun hpre hss => hpre (by simpa using hss))⟩

theorem mem_inOrder {e : Place × Entry} : e ∈ inOrder entries ↔ e ∈ entries :=
  List.mem_mergeSort

/-- Different places come in the order of their names. -/
theorem pairwise_inOrder (hnodup : (entries.map Prod.fst).Nodup) :
    (inOrder entries).Pairwise fun x y => x.1 < y.1 := by
  have hsorted : (inOrder entries).Pairwise fun x y => !List.lex y.1 x.1 := by
    refine List.pairwise_mergeSort (fun x y z hxy hyz => ?_) (fun x y => ?_) entries
    · simp only [Bool.not_eq_true', List.lex_eq_false_iff_ge] at hxy hyz ⊢
      exact List.le_trans hxy hyz
    · simp only [Bool.or_eq_true, Bool.not_eq_true', List.lex_eq_false_iff_ge]
      exact List.le_total x.1 y.1
  have hdiffer : (inOrder entries).Pairwise fun x y => x.1 ≠ y.1 :=
    List.pairwise_map.mp (((List.mergeSort_perm entries _).map Prod.fst).nodup_iff.mpr hnodup)
  refine hsorted.imp₂ (fun x y hle hne => ?_) hdiffer
  rw [Bool.not_eq_true', List.lex_eq_false_iff_ge] at hle
  exact List.not_le.mp fun hge => hne (List.le_antisymm hle hge)

/-! ## Entries of a readable tree -/

theorem Readable.eq_folder_or_file (h : Readable root entries) {entry : Entry}
    (hmem : (place, entry) ∈ entries) :
    entry = .folder ∨ ∃ text : String, entry = .file text.toUTF8 :=
  h.text _ hmem

theorem isOccupied_eq_false_iff : isOccupied entries place = false ↔ IsLast entries place := by
  simp only [IsLast, isOccupied, List.any_eq_false, Bool.and_eq_true, List.isPrefixOf_iff_prefix,
    bne_iff_ne, not_and, not_not]
  refine forall₂_congr fun e _ => ⟨fun h hpre => ?_, fun h hpre => by rw [h hpre]⟩
  exact (hpre.eq_of_length (h hpre).symm).symm

theorem fromUTF8?_eq_some_iff {bytes : ByteArray} {text : String} :
    String.fromUTF8? bytes = some text ↔ bytes = text.toUTF8 := by
  unfold String.fromUTF8?
  constructor
  · intro h
    split at h
    · cases h
      rfl
    · cases h
  · rintro rfl
    exact dif_pos text.isValidUTF8

theorem marker_ofSegments (hne : place ≠ []) :
    marker (ofSegments place) = ofSegments (place ++ [markerName]) := by
  rw [ofSegments_append_singleton hne]
  rfl

/-- What an entry becomes: a file under its names, or the marker of a folder with nothing
    in it. -/
theorem Readable.imported?_eq_some_iff (h : Readable root entries) {e : Place × Entry}
    (hmem : e ∈ entries) {key content : String} :
    imported? root entries e = some (key, content) ↔
      (e.2 = .file content.toUTF8 ∧ key = ofSegments e.1) ∨
      (e.2 = .folder ∧ IsLast entries e.1 ∧ key = ofSegments (e.1 ++ [markerName]) ∧
        content = "") := by
  obtain ⟨place, entry⟩ := e
  have hkey : keyOf place = ofSegments place := rfl
  have hopen := h.refusal _ hmem
  rw [← marker_ofSegments (h.isTree.ne_nil _ hmem), ← isOccupied_eq_false_iff]
  obtain rfl | ⟨text, rfl⟩ := h.eq_folder_or_file hmem
  · rw [imported?, hkey]
    cases isOccupied entries place <;> simp [eq_comm]
  · rw [imported?, hopen, hkey, fromUTF8?_eq_some_iff.mpr rfl]
    constructor
    · intro hfile
      cases hfile
      exact .inl ⟨rfl, rfl⟩
    · rintro (⟨hbytes, rfl⟩ | ⟨hfolder, -⟩)
      · rw [String.toByteArray_inj.mp (Entry.file.inj hbytes)]
        rfl
      · cases hfolder

/-- Where a key comes from: the names of its place, and the name of a marker. -/
theorem Readable.exists_of_imported? (h : Readable root entries) {e : Place × Entry}
    (hmem : e ∈ entries) {file : String × String}
    (hfile : imported? root entries e = some file) :
    ∃ us, segments file.1 = e.1 ++ us ∧ (us = [] ∨ IsLast entries e.1) := by
  have hsegments : ∀ s ∈ e.1 ++ [markerName], IsSegment s := by
    intro s hs
    rcases List.mem_append.mp hs with hs | hs
    · exact (h.isTree.names e hmem s hs).isStep.isSegment
    · rw [List.mem_singleton.mp hs]
      exact ⟨by decide, by decide⟩
  rcases (h.imported?_eq_some_iff hmem).mp hfile with ⟨-, hkey⟩ | ⟨-, hlast, hkey, -⟩
  · refine ⟨[], ?_, .inl rfl⟩
    rw [hkey, List.append_nil]
    exact segments_ofSegments fun s hs => hsegments s (List.mem_append_left _ hs)
  · exact ⟨[markerName], by rw [hkey, segments_ofSegments hsegments], .inr hlast⟩

/-- The files of the project, in the order of their segments. -/
def importedFiles (root : String) (entries : List (Place × Entry)) : List (String × String) :=
  (inOrder entries).filterMap (imported? root entries)

theorem Readable.mem_importedFiles (h : Readable root entries) (key content : String) :
    (key, content) ∈ importedFiles root entries ↔
      (∃ s, (s, .file content.toUTF8) ∈ entries ∧ key = ofSegments s) ∨
      (∃ s, (s, .folder) ∈ entries ∧ IsLast entries s ∧ key = ofSegments (s ++ [markerName]) ∧
        content = "") := by
  rw [importedFiles, List.mem_filterMap]
  constructor
  · rintro ⟨⟨s, entry⟩, hmem, hfile⟩
    have hmem := mem_inOrder.mp hmem
    rcases (h.imported?_eq_some_iff hmem).mp hfile with ⟨rfl, hkey⟩ | ⟨rfl, hrest⟩
    · exact .inl ⟨s, hmem, hkey⟩
    · exact .inr ⟨s, hmem, hrest⟩
  · rintro (⟨s, hmem, hkey⟩ | ⟨s, hmem, hrest⟩)
    · exact ⟨_, mem_inOrder.mpr hmem, (h.imported?_eq_some_iff hmem).mpr (.inl ⟨rfl, hkey⟩)⟩
    · exact ⟨_, mem_inOrder.mpr hmem, (h.imported?_eq_some_iff hmem).mpr (.inr ⟨rfl, hrest⟩)⟩

/-- The keys come in the order of their segments. -/
theorem Readable.pairwise_importedFiles (h : Readable root entries) :
    (importedFiles root entries).Pairwise fun x y => segments x.1 < segments y.1 := by
  have horder : (inOrder entries).Pairwise fun x y => x ∈ entries ∧ y ∈ entries ∧ x.1 < y.1 :=
    (pairwise_inOrder h.isTree.nodup).imp_of_mem fun hx hy hlt =>
      ⟨mem_inOrder.mp hx, mem_inOrder.mp hy, hlt⟩
  refine horder.filterMap _ ?_
  rintro x y ⟨hx, hy, hlt⟩ file hfile file' hfile'
  obtain ⟨us, hus, hlast⟩ := h.exists_of_imported? hx hfile
  obtain ⟨vs, hvs, -⟩ := h.exists_of_imported? hy hfile'
  rw [hus, hvs]
  refine append_lt_append hlt (hlast.imp_right fun hlast hpre => ?_) vs
  rw [hlast y hy hpre] at hlt
  exact List.lt_irrefl _ hlt

theorem Readable.nodup_keys (h : Readable root entries) :
    ((importedFiles root entries).map Prod.fst).Nodup := by
  refine List.pairwise_map.mpr (h.pairwise_importedFiles.imp fun hlt heq => ?_)
  rw [heq] at hlt
  exact List.lt_irrefl _ hlt

/-- The key of a file is clean, and has the place of the file. -/
theorem Readable.placeOf_file (h : Readable root entries) {bytes : ByteArray}
    (hmem : (place, .file bytes) ∈ entries) :
    IsClean (ofSegments place) ∧ Tree.placeOf (ofSegments place) = ⟨.file, place⟩ := by
  have hsteps : ∀ t ∈ place, IsStep t := fun t ht => (h.isTree.names _ hmem t ht).isStep
  have hsegments := segments_ofSegments fun t ht => (hsteps t ht).isSegment
  have hlast := h.unmarked _ hmem (by simp)
  have hclean : IsClean (ofSegments place) := by
    refine ⟨⟨place, h.isTree.ne_nil _ hmem, hsteps, rfl⟩, fun heq => hlast ?_⟩
    rw [heq, segments_markerName] at hsegments
    rw [← hsegments]
    rfl
  have hmarker : isMarker (ofSegments place) = false := by
    rw [Bool.eq_false_iff, ne_eq, hclean.isMarker_iff, hsegments]
    exact hlast
  exact ⟨hclean, by rw [placeOf_of_not_isMarker hmarker, hsegments]⟩

/-- The marker of a folder is a clean key, and has the place of the folder. -/
theorem Readable.placeOf_marker (h : Readable root entries)
    (hmem : (place, .folder) ∈ entries) :
    IsClean (ofSegments (place ++ [markerName])) ∧
      Tree.placeOf (ofSegments (place ++ [markerName])) = ⟨.folder, place⟩ := by
  have hsteps : ∀ t ∈ place ++ [markerName], IsStep t := List.forall_mem_append.mpr
    ⟨fun t ht => (h.isTree.names _ hmem t ht).isStep, List.forall_mem_singleton.mpr (by decide)⟩
  have hsegments := segments_ofSegments fun t ht => (hsteps t ht).isSegment
  have hclean : IsClean (ofSegments (place ++ [markerName])) := by
    refine ⟨⟨_, by simp, hsteps, rfl⟩, fun heq => h.isTree.ne_nil _ hmem ?_⟩
    rw [heq, segments_markerName] at hsegments
    simpa using hsegments
  have hmarker : isMarker (ofSegments (place ++ [markerName])) = true := by
    rw [hclean.isMarker_iff, hsegments]
    simp
  obtain ⟨ss, -, hsegments', -, hplace⟩ := hclean.exists_marker hmarker
  rw [hsegments, List.append_cancel_right_eq] at hsegments'
  exact ⟨hclean, by rw [hplace, hsegments']⟩

/-- The keys are clean, and have the places of their entries. -/
theorem Readable.exists_place (h : Readable root entries) {key content : String}
    (hfile : (key, content) ∈ importedFiles root entries) :
    IsClean key ∧ ∃ e ∈ entries,
      (e.2 = .file content.toUTF8 ∧ Tree.placeOf key = ⟨.file, e.1⟩) ∨
      (e.2 = .folder ∧ Tree.placeOf key = ⟨.folder, e.1⟩) := by
  rcases (h.mem_importedFiles key content).mp hfile with ⟨s, hmem, rfl⟩ | ⟨s, hmem, -, rfl, -⟩
  · obtain ⟨hclean, hplace⟩ := h.placeOf_file hmem
    exact ⟨hclean, _, hmem, .inl ⟨rfl, hplace⟩⟩
  · obtain ⟨hclean, hplace⟩ := h.placeOf_marker hmem
    exact ⟨hclean, _, hmem, .inr ⟨rfl, hplace⟩⟩

/-- Where a folder is needed for a key, there is one. -/
theorem Readable.folder_mem (h : Readable root entries) {key content : String}
    (hfile : (key, content) ∈ importedFiles root entries) (hne : place ≠ [])
    (hneeds : (Tree.placeOf key).Needs place .folder) : (place, .folder) ∈ entries := by
  obtain ⟨-, ⟨s, entry⟩, hmem, hplace⟩ := h.exists_place hfile
  by_cases heq : place = s
  · subst heq
    rcases hplace with ⟨-, hplace⟩ | ⟨hentry, -⟩
    · rw [hplace] at hneeds
      cases hneeds.2 rfl
    · exact hentry ▸ hmem
  · have hpre : place <+: s := by
      rcases hplace with ⟨-, hplace⟩ | ⟨-, hplace⟩ <;> rw [hplace] at hneeds <;> exact hneeds.1
    exact h.isTree.above _ hmem place hne hpre heq

/-- No file is in the way of another key. -/
theorem Readable.cleanKeys (h : Readable root entries) :
    CleanKeys ((importedFiles root entries).map Prod.fst) := by
  constructor
  · intro key hkey
    obtain ⟨file, hfile, rfl⟩ := List.mem_map.mp hkey
    exact (h.exists_place hfile).1
  · intro key hkey hmarker key' hkey'
    obtain ⟨file, hfile, rfl⟩ := List.mem_map.mp hkey
    obtain ⟨file', hfile', rfl⟩ := List.mem_map.mp hkey'
    obtain ⟨hclean, e, hmem, hplace⟩ := h.exists_place hfile
    obtain ⟨hclean', e', hmem', hplace'⟩ := h.exists_place hfile'
    rw [placeOf_of_not_isMarker hmarker] at hplace
    obtain ⟨hentry, hsegments⟩ : e.2 = .file file.2.toUTF8 ∧ segments file.1 = e.1 := by
      rcases hplace with ⟨hentry, hplace⟩ | ⟨-, hplace⟩
      · exact ⟨hentry, (Tree.Place.mk.inj hplace).2⟩
      · cases hplace
    rw [Bool.eq_false_iff]
    intro hwithin
    -- Another key within the file would need a folder where the file is.
    rw [← hclean.ofSegments_segments, hclean'.isWithin_iff hclean.isStep hclean.segments_ne_nil,
      hsegments] at hwithin
    have hfolder := h.folder_mem hfile' (h.isTree.ne_nil e hmem) hwithin
    have hsame : Entry.folder = e.2 := h.isTree.unique hfolder hmem
    rw [hentry] at hsame
    cases hsame

theorem Readable.entries_ofFiles (h : Readable root entries) :
    (Project.ofFiles (importedFiles root entries)).files.entries =
      (importedFiles root entries).map fun f => (f.1, ⟨f.1, f.2⟩) := by
  refine Table.entries_ofList ?_
  rw [List.map_map]
  exact h.nodup_keys

/-- A readable tree is imported. -/
theorem Readable.ofEntries (h : Readable root entries) :
    Project.ofEntries root entries = .ok (.ofFiles (importedFiles root entries)) := by
  have hopen : unopened? root entries = none := by
    rw [unopened?, List.findSome?_eq_none_iff]
    rintro ⟨place, entry⟩ hmem
    have href := h.refusal _ (mem_inOrder.mp hmem)
    cases entry with
    | folder => simpa using href
    | file | link => rfl
  rw [Project.ofEntries, hopen]
  rfl

/-- A readable tree in a folder is imported from there. -/
theorem Opens.importProject (h : Opens d root place m) (hread : Readable root (d.below place)) :
    d.importProject root = .ok (.ofFiles (importedFiles root (d.below place))) := by
  rw [Disk.importProject, contents, h.find]
  exact hread.ofEntries

end Disk

end LivePreview
