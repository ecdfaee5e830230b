/-
  LivePreview.Proofs.Deleting

  Deleting a folder, against deleting what is in it file by file.

  Both leave the project without the keys that pass a test (`Project.without`): the other
  entries stay as they are, and if the selected path passes the test the first file that is
  left is selected.  Two such steps are one step (`Project.without_without`), so a run of
  deletions depends on the set of its keys only, and not on their order.
-/

import LivePreview.Proofs.Editing

namespace LivePreview.Project

variable {p q : Project} {folder : String} {keys : List String}

/-! ## Without some keys -/

/-- The project without the keys that pass a test.  If the selected path passes it, the
    first file that is left is selected. -/
def without (p : Project) (gone : String → Bool) : Project :=
  let q := { p with files := p.files.retain fun k => !gone k }
  if gone p.activePath then q.selectFirst else q

theorem files_without (p : Project) (gone : String → Bool) :
    (p.without gone).files = p.files.retain fun k => !gone k := by
  simp only [without]
  split <;> rfl

theorem entryDocument_without (p : Project) (gone : String → Bool) :
    (p.without gone).entryDocument = p.entryDocument := by
  simp only [without]
  split <;> rfl

theorem activePath_without (p : Project) (gone : String → Bool) :
    (p.without gone).activePath =
      if gone p.activePath then
        ((p.paths.filter fun k => !gone k).find? fun k => !Path.isMarker k).getD ""
      else p.activePath := by
  simp only [without]
  split
  · rw [selectFirst, firstFile?, paths, Table.keys_retain, paths]
  · rfl

/-- Projects with the same three parts are the same. -/
theorem eq_of_parts (hfiles : p.files = q.files) (hactive : p.activePath = q.activePath)
    (hentry : p.entryDocument = q.entryDocument) : p = q := by
  cases p
  cases q
  simp_all

/-- Only what a test says of the keys and of the selected path matters. -/
theorem without_congr {gone also : String → Bool} (h : ∀ k ∈ p.paths, gone k = also k)
    (hactive : gone p.activePath = also p.activePath) : p.without gone = p.without also := by
  have hfiles : (p.files.retain fun k => !gone k) = p.files.retain fun k => !also k := by
    refine Table.ext (List.filter_congr fun e he => ?_)
    exact congrArg (!·) (h e.1 (List.mem_map_of_mem he))
  simp only [without, hfiles, hactive]

theorem without_false (p : Project) : p.without (fun _ => false) = p := by
  refine eq_of_parts ?_ ?_ (entryDocument_without p _)
  · rw [files_without]
    exact Table.ext (List.filter_eq_self.mpr fun _ _ => rfl)
  · rw [activePath_without]
    rfl

/-- The first hit of a list is the first hit of every part of it that keeps the hit, and a
    list without a hit has no part with one. -/
theorem find?_filter_of_keeps {l : List String} {test keep : String → Bool}
    (h : ∀ k, l.find? test = some k → keep k = true) :
    (l.filter keep).find? test = l.find? test := by
  cases hfind : l.find? test with
  | none =>
    rw [List.find?_eq_none] at hfind ⊢
    exact fun k hk => hfind k (List.mem_of_mem_filter hk)
  | some k =>
    obtain ⟨htest, before, after, rfl, hbefore⟩ := List.find?_eq_some_iff_append.mp hfind
    rw [List.filter_append, List.filter_cons_of_pos (h k hfind), List.find?_append,
      List.find?_cons_of_pos htest, List.find?_eq_none.mpr, Option.none_or]
    intro l hl
    simpa using hbefore l (List.mem_of_mem_filter hl)

/-- Two steps are one.  If the first of them selects a file that the second takes, the
    selection is made once more; if the second leaves it, it is the first file of what is
    left in the end as well. -/
theorem without_without (p : Project) (gone more : String → Bool) :
    (p.without gone).without more = p.without fun k => gone k || more k := by
  have hfilter : (p.paths.filter fun k => !gone k).filter (fun k => !more k) =
      p.paths.filter fun k => !(gone k || more k) := by
    rw [List.filter_filter]
    refine List.filter_congr fun k _ => ?_
    simp [Bool.and_comm]
  have hpaths : (p.without gone).paths = p.paths.filter fun k => !gone k := by
    rw [paths, files_without, Table.keys_retain, paths]
  refine eq_of_parts ?_ ?_ ?_
  · simp only [Table.ext_iff, files_without, Table.entries_retain, List.filter_filter]
    refine List.filter_congr fun e _ => ?_
    simp [Bool.and_comm]
  · rw [activePath_without, activePath_without p fun k => gone k || more k, hpaths, hfilter,
      activePath_without p gone]
    -- If the first step keeps the selected file, only the second one counts.
    cases hgone : gone p.activePath with
    | false => simp
    | true =>
      simp only [if_true, Bool.true_or]
      split
      · rfl
      · next hmore =>
        rw [← hfilter]
        refine (congrArg (·.getD "") (find?_filter_of_keeps fun k hk => ?_)).symm
        simpa [hk] using hmore
  · rw [entryDocument_without, entryDocument_without, entryDocument_without]

/-! ## Runs of deletions -/

theorem delete?_eq_without {path : String} (h : path ∈ p.paths) :
    p.delete? path = some (p.without (· == path)) := by
  have hcontains : p.contains path = true := Table.contains_iff_mem_keys.mpr h
  have herase : p.files.erase path = p.files.retain fun k => !(k == path) := rfl
  simp only [delete?, hcontains, if_true, without, herase, beq_iff_eq]

/-- Deletions of different keys that are present are all carried out. -/
theorem foldlM_delete? (hkeys : keys.Nodup) (hmem : ∀ k ∈ keys, k ∈ p.paths) :
    keys.foldlM delete? p = some (p.without (keys.contains ·)) := by
  induction keys generalizing p with
  | nil => exact congrArg some (without_false p).symm
  | cons key rest ih =>
    obtain ⟨hnew, hrest⟩ := List.nodup_cons.mp hkeys
    -- The keys still to be deleted are not touched by the first deletion.
    have hstill : ∀ k ∈ rest, k ∈ (p.without (· == key)).paths := by
      intro k hk
      rw [paths, files_without, Table.keys_retain, List.mem_filter]
      refine ⟨hmem k (List.mem_cons_of_mem key hk), ?_⟩
      simpa using ne_of_mem_of_not_mem hk hnew
    rw [List.foldlM_cons, delete?_eq_without (hmem key List.mem_cons_self)]
    refine (ih hrest hstill).trans (congrArg some ?_)
    rw [without_without]
    simp only [List.contains_cons]

/-! ## Deleting a folder -/

theorem deleteFolder_eq_without
    (hactive : p.activePath ∈ p.paths ∨ Path.isWithin folder p.activePath = false) :
    (p.deleteFolder folder).1 = p.without (Path.isWithin folder) := by
  cases hin : Path.isWithin folder p.activePath with
  | false =>
    rw [deleteFolder_of_not_isWithin hin]
    simp [without, hin]
  | true =>
    have hmem : p.activePath ∈ p.paths := hactive.resolve_right (by simp [hin])
    rw [deleteFolder_of_mem_paths hmem hin]
    simp [without, hin]

/-- The count is the number of keys in the folder. -/
theorem count_deleteFolder (p : Project) (folder : String) :
    (p.deleteFolder folder).2 = (p.paths.filter (Path.isWithin folder)).length := by
  have hsplit := List.length_eq_length_filter_add
    (l := p.files.entries) fun e => Path.isWithin folder e.1
  simp only [deleteFolder, Table.size, Table.retain, paths, Table.keys, List.filter_map,
    List.length_map, Function.comp_def]
  omega

/-- A path that goes on behind the name of a folder without a slash is not in it. -/
theorem isWithin_append_eq_false {rest : String} (hfolder : folder.toList.getLast? ≠ some '/')
    (hrest : rest.toList.head? ≠ some '/') : Path.isWithin folder (folder ++ rest) = false := by
  rw [Bool.eq_false_iff, ne_eq, Path.isWithin_iff, Path.folderPrefix,
    if_neg (by simpa using hfolder)]
  intro h
  simp only [String.toList_append] at h
  rw [List.prefix_append_right_inj] at h
  obtain ⟨tail, htail⟩ := h
  exact hrest (by simp [← htail])

/-- Where the selected path is a key or not in the folder, deleting the folder is deleting
    the keys in it, one at a time in any order: each of the deletions is carried out, they
    lead to the same project with the same selection, and they are as many as the folder
    counts.  What is not in the folder keeps its content and its place, also a key that only
    begins with the name of the folder. -/
theorem deleteFolder_eq_deletes
    (hactive : p.activePath ∈ p.paths ∨ Path.isWithin folder p.activePath = false)
    (hkeys : keys.Perm (p.paths.filter (Path.isWithin folder))) :
    keys.foldlM delete? p = some (p.deleteFolder folder).1 ∧
      (p.deleteFolder folder).2 = keys.length ∧
      (p.deleteFolder folder).1.files.entries =
        p.files.entries.filter (fun e => !Path.isWithin folder e.1) ∧
      ∀ rest : String, folder.toList.getLast? ≠ some '/' → rest.toList.head? ≠ some '/' →
        folder ++ rest ∈ p.paths → folder ++ rest ∈ (p.deleteFolder folder).1.paths := by
  have hmem : ∀ k, k ∈ keys ↔ k ∈ p.paths ∧ Path.isWithin folder k = true := by
    intro k
    rw [hkeys.mem_iff, List.mem_filter]
  have hfiles := files_deleteFolder p folder
  refine ⟨?_, ?_, congrArg Table.entries hfiles, ?_⟩
  · have hnodup : keys.Nodup := hkeys.nodup_iff.mpr (p.files.nodup_keys.filter _)
    rw [foldlM_delete? hnodup fun k hk => ((hmem k).mp hk).1, deleteFolder_eq_without hactive]
    refine congrArg some (without_congr (fun k hk => ?_) ?_)
    · rw [Bool.eq_iff_iff, List.contains_iff_mem, hmem]
      exact and_iff_right hk
    · rw [Bool.eq_iff_iff, List.contains_iff_mem, hmem]
      exact ⟨And.right, fun hin => ⟨hactive.resolve_right (by simp [hin]), hin⟩⟩
  · rw [count_deleteFolder, hkeys.length_eq]
  · intro rest hfolder hrest hpresent
    rw [paths, hfiles, Table.keys_retain, List.mem_filter]
    exact ⟨hpresent, by simp [isWithin_append_eq_false hfolder hrest]⟩

/-- The files of a folder are deleted in an order in which the selection moves to another
    file of the folder and then, when a marker is all that is left of it, to a file behind
    it. -/
theorem deleteFolder_eq_deletes_reselected :
    let p := { ofFiles [("src/b.ts", "2"), ("src/.folder", ""), ("src/a.ts", "1"),
      ("srcfile.ts", "3")] with activePath := "src/a.ts" }
    let keys := ["src/a.ts", "src/b.ts", "src/.folder"]
    (p.activePath ∈ p.paths ∧
        keys.Perm (p.paths.filter (Path.isWithin "src"))) ∧
      ((p.delete? "src/a.ts").map activePath = some "src/b.ts" ∧
        keys.foldlM delete? p = some (ofFiles [("srcfile.ts", "3")])) ∧
      p.deleteFolder "src" = (ofFiles [("srcfile.ts", "3")], 3) := by
  intro p keys
  have hactive : p.activePath ∈ p.paths := by decide
  have hkeys : keys.Perm (p.paths.filter (Path.isWithin "src")) := by decide
  have hresult : p.deleteFolder "src" = (ofFiles [("srcfile.ts", "3")], 3) := by decide
  obtain ⟨hdeletes, -, -, -⟩ := deleteFolder_eq_deletes (.inl hactive) hkeys
  rw [hresult] at hdeletes
  exact ⟨⟨hactive, hkeys⟩, ⟨by decide, hdeletes⟩, hresult⟩

end LivePreview.Project
