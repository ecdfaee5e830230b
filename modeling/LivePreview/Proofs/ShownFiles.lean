/-
  LivePreview.Proofs.ShownFiles

  The files of the folder view and the keys they stand for.

  A file of the view has the path that its key gets when the empty segments are left out, so it
  is found under that path if its key has none (`Path.IsTidy`).  Edits bring in no keys but those
  they write (`Project.mem_paths_edits`); as long as these are tidy or mark folders, every file
  that is shown can be opened (`Tree.file_mem_nodes_edits`).
-/

import LivePreview.Proofs.CleanKeys
import LivePreview.Proofs.EditHistory

namespace LivePreview

namespace Path

variable {path : String}

/-! ## Tidy paths -/

/-- The path has no empty segments: no slash stands at its front, at its end or behind another
    one.  The empty path has no segments. -/
def IsTidy (path : String) : Prop := path = "" ∨ [] ∉ path.toList.splitOn '/'

instance (path : String) : Decidable (IsTidy path) := inferInstanceAs (Decidable (_ ∨ _))

/-- Exactly the tidy paths are what their segments make up. -/
theorem ofSegments_segments_eq_iff : ofSegments (segments path) = path ↔ IsTidy path := by
  constructor
  · intro heq
    by_cases hnil : segments path = []
    · rw [hnil] at heq
      exact .inl heq.symm
    · -- Cut again, the path falls into its segments, which are not empty.
      refine .inr fun hmem => ?_
      have hslash : ∀ cs ∈ (segments path).map String.toList, '/' ∉ cs := by
        intro cs hcs
        obtain ⟨s, hs, rfl⟩ := List.mem_map.mp hcs
        exact (isSegment_of_mem_segments hs).2
      rw [← heq, toList_ofSegments,
        List.splitOn_intercalate '/' hslash (by simpa using hnil)] at hmem
      obtain ⟨s, hs, hempty⟩ := List.mem_map.mp hmem
      exact (isSegment_of_mem_segments hs).1 (String.toList_inj.mp hempty)
  · rintro (rfl | hfull)
    · rfl
    · have hall : (path.toList.splitOn '/').filter (!·.isEmpty) =
          path.toList.splitOn '/' := by
        refine List.filter_eq_self.mpr fun cs hcs => ?_
        cases cs with
        | nil => exact absurd hcs hfull
        | cons c cs => rfl
      rw [← String.toList_inj, toList_ofSegments, segments, hall, List.map_map]
      simp [Function.comp_def, List.intercalate_splitOn]

theorem IsTidy.getLast?_ne (h : IsTidy path) : path.toList.getLast? ≠ some '/' := by
  intro hlast
  obtain ⟨before, hpath⟩ := List.getLast?_eq_some_iff.mp hlast
  rcases h with rfl | hfull
  · simp at hpath
  · rw [hpath, List.splitOn_append_cons_self] at hfull
    exact hfull (List.mem_append_right _ List.mem_cons_self)

/-- The name of a path is its last segment, unless it is empty. -/
theorem getLast?_segments (hname : name path ≠ "") :
    (segments path).getLast? = some (name path) := by
  cases hsplit : Text.splitLast '/' path.toList with
  | none =>
    have hpath : name path = path := by rw [name, hsplit]
    rw [hpath] at hname ⊢
    have hchars : path.toList ≠ [] := by simpa using hname
    rw [segments, List.splitOn_eq_singleton (Text.splitLast_eq_none_iff.mp hsplit)]
    simp [hchars]
  | some cut =>
    obtain ⟨before, last⟩ := cut
    obtain ⟨hpath, hlast⟩ := Text.splitLast_eq_some_iff.mp hsplit
    have hlastName : name path = String.ofList last := by rw [name, hsplit]
    rw [hlastName] at hname ⊢
    have hchars : last ≠ [] := by simpa using hname
    rw [segments, hpath, List.splitOn_append_cons_self, List.splitOn_eq_singleton hlast]
    simp [hchars]

/-- The last segment is the name that is left when the slashes at the end are taken away. -/
theorem eq_name_of_getLast?_segments {s : String} (h : (segments path).getLast? = some s) :
    s = name (String.ofList (trimEndSlashes path.toList)) := by
  have hsegments : segments (String.ofList (trimEndSlashes path.toList)) = segments path := by
    rw [segments_trimEndSlashes, String.ofList_toList]
  have hname : name (String.ofList (trimEndSlashes path.toList)) ≠ "" := by
    intro hempty
    rcases getLast?_of_name_eq_empty hempty with hnil | hslash
    · rw [← hsegments, hnil] at h
      cases h
    · rw [String.toList_ofList] at hslash
      exact getLast?_trimEndSlashes _ hslash
  rw [← hsegments, getLast?_segments hname] at h
  exact (Option.some.inj h).symm

theorem isMarker_marker (folder : String) : isMarker (marker folder) = true := by
  have hname : '/' ∉ markerName.toList := by decide
  rw [isMarker, marker, name_append_slash hname, beq_self_eq_true]

end Path

/-! ## Keys that edits bring in -/

theorem Edit.Changes.mem_keys {e : Edit} {files after : Table File} {key : String}
    (h : e.Changes files after) (hkey : key ∈ after.keys) : key ∈ files.keys ∨ e.Writes key := by
  cases h with
  | kept => exact .inl hkey
  | written hwrites =>
    rcases Table.mem_keys_put.mp hkey with rfl | hmem
    · exact .inr hwrites
    · exact .inl hmem
  | removed =>
    rw [Table.keys_retain] at hkey
    exact .inl (List.mem_of_mem_filter hkey)
  | moved =>
    rcases Table.mem_keys_put.mp hkey with rfl | hkept
    · exact .inr rfl
    · rw [Table.keys_erase] at hkept
      exact .inl (List.mem_of_mem_filter hkept)

namespace Project

variable {p : Project} {e : Edit} {es : List Edit} {key : String}

theorem mem_paths_edit (h : key ∈ (p.edit e).1.paths) : key ∈ p.paths ∨ e.Writes key :=
  (changes_edit p e).mem_keys h

/-- Every key after some edits was there before them, or one of them writes to it. -/
theorem mem_paths_edits (h : key ∈ (p.edits es).paths) :
    key ∈ p.paths ∨ ∃ e ∈ es, e.Writes key := by
  induction es generalizing p with
  | nil => exact .inl h
  | cons e es ih =>
    rw [edits_cons] at h
    rcases ih h with hmem | ⟨e', he', hwrites⟩
    · exact (mem_paths_edit hmem).imp_right fun hwrites => ⟨e, List.mem_cons_self, hwrites⟩
    · exact .inr ⟨e', List.mem_cons_of_mem e he', hwrites⟩

end Project

/-! ## Files of the view -/

namespace Tree

open LivePreview.Path (IsTidy isMarker markerName segments ofSegments)

variable {keys : List String} {name path : String}

/-- Only places of the paths are accepted. -/
theorem exists_of_mem_accepted {place : Place} (h : place ∈ accepted keys) :
    ∃ key ∈ keys, placeOf key = place := by
  induction keys using List.reverseRecOn with
  | nil => cases h
  | append_singleton keys key ih =>
    rw [accepted_append_singleton, accept] at h
    have hkept : place ∈ accepted keys → ∃ k ∈ keys ++ [key], placeOf k = place := by
      intro hmem
      obtain ⟨k, hk, hplace⟩ := ih hmem
      exact ⟨k, List.mem_append_left _ hk, hplace⟩
    split at h
    · exact hkept h
    · rcases List.mem_append.mp h with hmem | hmem
      · exact hkept hmem
      · exact ⟨key, by simp, (List.mem_singleton.mp hmem).symm⟩

/-- A file of the view stands for a key that marks no folder, and has its segments. -/
theorem exists_key_of_file_mem_nodes (h : .file name path ∈ nodes (ofPaths keys)) :
    ∃ key ∈ keys, isMarker key = false ∧ (segments key).getLast? = some name ∧
      path = ofSegments (segments key) := by
  obtain ⟨ss, haccepted, hlast, hpath⟩ := file_mem_nodes_iff.mp h
  obtain ⟨key, hkey, hplace⟩ := exists_of_mem_accepted haccepted
  obtain ⟨hmarker, rfl⟩ := Path.of_placeOf_eq_file hplace
  exact ⟨key, hkey, hmarker, hlast, hpath⟩

/-- After any edits of an empty project, each file of the view stands for a key that marks no
    folder.  Its name is that of the key without the slashes at the end, and it is found under its
    path if the key is tidy, and else not under that key.  So if the edits write to no keys but
    tidy ones and markers, every file of the view is a key, and none has the name of markers. -/
theorem file_mem_nodes_edits (es : List Edit) :
    let keys := (Project.empty.edits es).paths
    (∀ name path, .file name path ∈ nodes (ofPaths keys) →
      ∃ key ∈ keys, isMarker key = false ∧
        name = Path.name (String.ofList (Path.trimEndSlashes key.toList)) ∧
        path = ofSegments (segments key) ∧ (path = key ↔ IsTidy key)) ∧
    ((∀ e ∈ es, ∀ key, e.Writes key → isMarker key = false → IsTidy key) →
      ∀ name path, .file name path ∈ nodes (ofPaths keys) → path ∈ keys ∧ name ≠ markerName) := by
  intro keys
  have hfiles : ∀ name path, .file name path ∈ nodes (ofPaths keys) →
      ∃ key ∈ keys, isMarker key = false ∧
        name = Path.name (String.ofList (Path.trimEndSlashes key.toList)) ∧
        path = ofSegments (segments key) ∧ (path = key ↔ IsTidy key) := by
    intro name path hfile
    obtain ⟨key, hkey, hmarker, hlast, rfl⟩ := exists_key_of_file_mem_nodes hfile
    exact ⟨key, hkey, hmarker, Path.eq_name_of_getLast?_segments hlast, rfl,
      Path.ofSegments_segments_eq_iff⟩
  refine ⟨hfiles, fun hwrites name path hfile => ?_⟩
  obtain ⟨key, hkey, hmarker, hname, -, hopen⟩ := hfiles name path hfile
  -- The key was written by one of the edits, as no key was there before them.
  have htidy : IsTidy key := by
    rcases Project.mem_paths_edits hkey with hmem | ⟨e, he, hkey⟩
    · cases hmem
    · exact hwrites e he key hkey hmarker
  rw [Path.trimEndSlashes_eq_self htidy.getLast?_ne, String.ofList_toList] at hname
  rw [hopen.mpr htidy, hname]
  exact ⟨hkey, by simpa [isMarker] using hmarker⟩

/-- A folder whose name is given with blanks around it and a slash behind it, a file created in
    it, and one moved into it. -/
theorem file_mem_nodes_edits_moved :
    let es : List Edit := [.createFolder " src/ ", .createFile "src/a.js",
      .upsert "b.js" (some "1"), .rename "b.js" "src/c.js"]
    let keys := (Project.empty.edits es).paths
    (∀ e ∈ es, ∀ key, e.Writes key → isMarker key = false → IsTidy key) ∧
      .file "c.js" "src/c.js" ∈ nodes (ofPaths keys) ∧ "src/c.js" ∈ keys ∧
        "c.js" ≠ markerName := by
  intro es keys
  have hwrites : ∀ e ∈ es, ∀ key, e.Writes key → isMarker key = false → IsTidy key := by
    simp only [es, List.forall_mem_cons, Edit.Writes, forall_eq, Path.isMarker_marker]
    exact ⟨nofun, by decide, by decide, by decide, nofun⟩
  have hfile : .file "c.js" "src/c.js" ∈ nodes (ofPaths keys) :=
    file_mem_nodes_iff.mpr ⟨["src", "c.js"], by decide, by decide, by decide⟩
  exact ⟨hwrites, hfile, (file_mem_nodes_edits es).2 hwrites _ _ hfile⟩

/-- A file behind a slash is shown under a path that is no key, and one with a slash behind the
    name of markers is shown under that name. -/
theorem exists_file_not_mem_paths :
    let slash := (Project.empty.edits [.upsert "/a.js" (some "x")]).paths
    let marked := (Project.empty.edits [.createFile "src/.folder/"]).paths
    (.file "a.js" "a.js" ∈ nodes (ofPaths slash) ∧ "a.js" ∉ slash) ∧
      .file markerName "src/.folder" ∈ nodes (ofPaths marked) ∧ "src/.folder" ∉ marked := by
  intro slash marked
  exact ⟨⟨file_mem_nodes_iff.mpr ⟨["a.js"], by decide, by decide, by decide⟩, by decide⟩,
    file_mem_nodes_iff.mpr ⟨["src", ".folder"], by decide, by decide, by decide⟩, by decide⟩

end Tree

end LivePreview
