/-
  LivePreview.Proofs.Editing

  What one edit can do to the files, and what every sequence of edits keeps.

  An edit leaves the files as they are, writes one of them, takes some away or moves one
  (`Project.changes_edit`); what all edits keep is read off these four cases.  Every file has
  the path of its key (`Project.keyed_edits`).  The selection is empty or a key, as long as
  only keys and nothing are selected by hand (`Project.hasSelection_edits`).  When the selected
  file goes away with a deletion, the first file is selected
  (`Project.activePath_edit_of_removes`).
-/

import LivePreview.Project.Edit
import LivePreview.Proofs.OpenedProject

namespace LivePreview

/-- The edit only takes files away. -/
inductive Edit.Removes : Edit → Prop
  | delete (path : String) : Removes (.delete path)
  | deleteFolder (folder : String) : Removes (.deleteFolder folder)

/-- The keys that the edit writes to, if it is carried out. -/
def Edit.Writes : Edit → String → Prop
  | .upsert path _, key => key = path
  | .createFile path, key => key = path
  | .createFolder path, key => key = Path.marker (Project.folderName path)
  | .rename _ target, key => key = target
  | _, _ => False

/-- What an edit makes of the files: they stay, a file is written under its own path, some are
    taken away, or one is moved and keeps its content. -/
inductive Edit.Changes (files : Table File) : Edit → Table File → Prop
  | kept (e : Edit) : Changes files e files
  | written {e : Edit} {path : String} (h : e.Writes path) (text : String) :
    Changes files e (files.put path ⟨path, text⟩)
  | removed {e : Edit} (h : e.Removes) (keep : String → Bool) :
    Changes files e (files.retain keep)
  | moved {source target : String} {file : File} (h : files.get? source = some file)
    (hne : source ≠ target) :
    Changes files (.rename source target)
      ((files.erase source).put target ⟨target, file.content⟩)

theorem Edit.Changes.keyed {e : Edit} {files after : Table File} (h : e.Changes files after)
    (hfiles : files.Keyed) : after.Keyed := by
  cases h with
  | kept => exact hfiles
  | written _ text => exact hfiles.put _ text
  | removed _ keep => exact hfiles.retain keep
  | moved => exact (hfiles.erase _).put _ _

namespace Project

variable {p q : Project} {e : Edit}

/-! ## One edit -/

/-- An edit that may be refused keeps what the carried out one has. -/
theorem orRefused_induction {P : Project → Prop} {q : Option Project} (h : P p)
    (hq : ∀ r, q = some r → P r) : P (p.orRefused q).1 := by
  cases q with
  | none => exact h
  | some r => exact hq r rfl

theorem createFile?_eq_some {path : String} (h : p.createFile? path = some q) :
    q = p.upsert path (some "") := by
  unfold createFile? at h
  split at h
  · cases h
  · exact (Option.some.inj h).symm

theorem createFolder?_eq_some {path : String} (h : p.createFolder? path = some q) :
    q = p.upsert (Path.marker (folderName path)) (some "") := by
  unfold createFolder? at h
  dsimp only at h
  split at h
  · cases h
  · exact (Option.some.inj h).symm

theorem rename?_eq_some {source target : String} (h : p.rename? source target = some q) :
    ∃ file, p.get? source = some file ∧ (source = target ∧ q = p ∨ source ≠ target ∧
      q = { p with
        files := (p.files.erase source).put target ⟨target, file.content⟩
        activePath := if p.activePath = source then target else p.activePath }) := by
  unfold rename? at h
  split at h
  · cases h
  · next file hfile =>
    refine ⟨file, hfile, ?_⟩
    split at h
    · next heq => exact .inl ⟨heq, (Option.some.inj h).symm⟩
    · next hne => exact .inr ⟨hne, (Option.some.inj h).symm⟩

theorem rename?_eq_none {source target : String} (h : p.rename? source target = none) :
    p.get? source = none := by
  unfold rename? at h
  split at h
  · assumption
  · split at h <;> cases h

theorem delete?_eq_some {path : String} (h : p.delete? path = some q) :
    path ∈ p.paths ∧ q = (if p.activePath = path
      then selectFirst { p with files := p.files.erase path }
      else { p with files := p.files.erase path }) := by
  unfold delete? at h
  split at h
  · next hmem => exact ⟨Table.contains_iff_mem_keys.mp hmem, (Option.some.inj h).symm⟩
  · cases h

theorem delete?_eq_none {path : String} (h : p.delete? path = none) : path ∉ p.paths := by
  unfold delete? at h
  split at h
  · cases h
  · next hmem => rwa [contains, Table.contains_iff_mem_keys] at hmem

theorem files_of_delete? {path : String} (h : p.delete? path = some q) :
    q.files = p.files.erase path := by
  obtain ⟨-, rfl⟩ := delete?_eq_some h
  split <;> rfl

theorem files_deleteFolder (p : Project) (folder : String) :
    (p.deleteFolder folder).1.files = p.files.retain fun k => !Path.isWithin folder k := by
  simp only [deleteFolder]
  split <;> rfl

theorem keyed_upsert (h : p.files.Keyed) (path : String) (content : Option String) :
    (p.upsert path content).files.Keyed :=
  h.put path _

/-- An edit does nothing to the files but what its changes say; refused, it keeps them. -/
theorem changes_edit (p : Project) (e : Edit) : e.Changes p.files (p.edit e).1.files := by
  have hrefused : ∀ q, (∀ r, q = some r → e.Changes p.files r.files) →
      e.Changes p.files (p.orRefused q).1.files :=
    fun q => orRefused_induction (P := fun r => e.Changes p.files r.files) (.kept e)
  cases e with
  | upsert path content =>
    have hwrites : (Edit.upsert path content).Writes path := rfl
    exact .written hwrites _
  | createFile path =>
    simp only [edit]
    refine hrefused _ fun r hr => ?_
    rw [createFile?_eq_some hr]
    have hwrites : (Edit.createFile path).Writes path := rfl
    exact .written hwrites ""
  | createFolder path =>
    simp only [edit]
    refine hrefused _ fun r hr => ?_
    rw [createFolder?_eq_some hr]
    have hwrites : (Edit.createFolder path).Writes (Path.marker (folderName path)) := rfl
    exact .written hwrites ""
  | delete path =>
    simp only [edit]
    refine hrefused _ fun r hr => ?_
    rw [files_of_delete? hr]
    exact .removed (.delete path) (· != path)
  | deleteFolder folder =>
    simp only [edit, files_deleteFolder]
    exact .removed (.deleteFolder folder) _
  | rename source target =>
    simp only [edit]
    refine hrefused _ fun r hr => ?_
    obtain ⟨file, hget, ⟨-, rfl⟩ | ⟨hne, rfl⟩⟩ := rename?_eq_some hr
    · exact .kept _
    · exact .moved hget hne
  | setActive path => exact .kept _
  | setEntryDocument path => exact .kept _

theorem keyed_edit (h : p.files.Keyed) (e : Edit) : (p.edit e).1.files.Keyed :=
  (changes_edit p e).keyed h

/-- The selection is empty or a key. -/
def HasSelection (p : Project) : Prop := p.activePath = "" ∨ p.activePath ∈ p.paths

theorem hasSelection_selectFirst (p : Project) : p.selectFirst.HasSelection := by
  cases h : p.firstFile? with
  | none => exact .inl (by simp [selectFirst, h])
  | some k =>
    have hactive : p.selectFirst.activePath = k := by simp [selectFirst, h]
    exact .inr (hactive ▸ mem_paths_of_firstFile? h)

/-- A selection is kept by everything that keeps the key of it. -/
theorem HasSelection.of_kept (h : p.HasSelection) (hactive : q.activePath = p.activePath)
    (hpaths : p.activePath ∈ p.paths → p.activePath ∈ q.paths) : q.HasSelection := by
  unfold HasSelection
  rw [hactive]
  exact h.imp_right hpaths

theorem HasSelection.upsert (h : p.HasSelection) (path : String) (content : Option String) :
    (p.upsert path content).HasSelection :=
  h.of_kept rfl fun hmem => Table.mem_keys_put.mpr (.inr hmem)

/-- A selected file that a deleted folder holds is not left selected. -/
theorem deleteFolder_of_mem_paths {folder : String} (hmem : p.activePath ∈ p.paths)
    (hin : Path.isWithin folder p.activePath = true) :
    (p.deleteFolder folder).1 =
      selectFirst { p with files := p.files.retain fun k => !Path.isWithin folder k } := by
  have hlt : (p.files.retain fun k => !Path.isWithin folder k).size < p.files.size :=
    Table.size_retain_lt hmem (by simp [hin])
  simp only [deleteFolder]
  rw [if_pos ⟨by omega, hin⟩]

theorem deleteFolder_of_not_isWithin {folder : String}
    (hout : Path.isWithin folder p.activePath = false) :
    (p.deleteFolder folder).1 =
      { p with files := p.files.retain fun k => !Path.isWithin folder k } := by
  simp [deleteFolder, hout]

theorem HasSelection.of_delete? {path : String} (h : p.HasSelection)
    (hq : p.delete? path = some q) : q.HasSelection := by
  obtain ⟨-, rfl⟩ := delete?_eq_some hq
  split
  · exact hasSelection_selectFirst _
  · next hne =>
    refine h.of_kept rfl fun hmem => ?_
    rw [paths, Table.keys_erase, List.mem_filter]
    exact ⟨hmem, by simpa using hne⟩

theorem HasSelection.deleteFolder (h : p.HasSelection) (folder : String) :
    (p.deleteFolder folder).1.HasSelection := by
  by_cases hin : Path.isWithin folder p.activePath = true
  · rcases h with hempty | hmem
    · -- The empty path lies in no folder.
      rw [hempty, Path.isWithin_empty] at hin
      cases hin
    · rw [deleteFolder_of_mem_paths hmem hin]
      exact hasSelection_selectFirst _
  · rw [Bool.not_eq_true] at hin
    rw [deleteFolder_of_not_isWithin hin]
    refine h.of_kept rfl fun hmem => ?_
    rw [paths, Table.keys_retain, List.mem_filter]
    exact ⟨hmem, by simp [hin]⟩

/-- The selection goes along with the file that is moved. -/
theorem HasSelection.of_rename? {source target : String} (h : p.HasSelection)
    (hq : p.rename? source target = some q) : q.HasSelection := by
  obtain ⟨file, -, ⟨-, rfl⟩ | ⟨-, rfl⟩⟩ := rename?_eq_some hq
  · exact h
  · by_cases hsource : p.activePath = source
    · exact .inr (by simp [hsource, paths, Table.mem_keys_put])
    · refine h.of_kept (if_neg hsource) fun hmem => ?_
      rw [paths, Table.mem_keys_put, Table.keys_erase, List.mem_filter]
      exact .inr ⟨hmem, by simpa using hsource⟩

/-- Selecting by hand is permitted for keys and for nothing. -/
def Permits (p : Project) : Edit → Prop
  | .setActive path => path = "" ∨ path ∈ p.paths
  | _ => True

theorem hasSelection_edit (h : p.HasSelection) (he : p.Permits e) :
    (p.edit e).1.HasSelection := by
  cases e with
  | upsert path content => exact h.upsert path content
  | createFile path =>
    simp only [edit]
    refine orRefused_induction h fun r hr => ?_
    rw [createFile?_eq_some hr]
    exact h.upsert path _
  | createFolder path =>
    simp only [edit]
    refine orRefused_induction h fun r hr => ?_
    rw [createFolder?_eq_some hr]
    exact h.upsert _ _
  | delete path => exact orRefused_induction h fun r hr => h.of_delete? hr
  | deleteFolder folder => exact h.deleteFolder folder
  | rename source target => exact orRefused_induction h fun r hr => h.of_rename? hr
  | setActive path => exact he
  | setEntryDocument path => exact h

/-- When a deletion takes the selected file, the first file that is left is selected. -/
theorem activePath_edit_of_removes (he : e.Removes) (hmem : p.activePath ∈ p.paths)
    (hgone : p.activePath ∉ (p.edit e).1.paths) :
    (p.edit e).1.activePath = (p.edit e).1.firstFile?.getD "" := by
  -- A deletion that keeps the selected file is none that takes it.
  cases he with
  | delete path =>
    simp only [edit] at hgone ⊢
    cases hdelete : p.delete? path with
    | none =>
      rw [hdelete] at hgone
      exact absurd hmem hgone
    | some r =>
      rw [hdelete] at hgone
      obtain ⟨-, rfl⟩ := delete?_eq_some hdelete
      by_cases hpath : p.activePath = path
      · simp only [orRefused, if_pos hpath]
        rfl
      · simp only [orRefused, if_neg hpath, paths, Table.keys_erase] at hgone
        exact absurd (List.mem_filter.mpr ⟨hmem, by simpa using hpath⟩) hgone
  | deleteFolder folder =>
    change (p.deleteFolder folder).1.activePath = (p.deleteFolder folder).1.firstFile?.getD ""
    change p.activePath ∉ (p.deleteFolder folder).1.paths at hgone
    cases hin : Path.isWithin folder p.activePath with
    | true =>
      rw [deleteFolder_of_mem_paths hmem hin]
      rfl
    | false =>
      rw [deleteFolder_of_not_isWithin hin, paths, Table.keys_retain] at hgone
      exact absurd (List.mem_filter.mpr ⟨hmem, by simp [hin]⟩) hgone

/-! ## Runs of edits -/

/-- Only keys and nothing are selected by hand along the edits. -/
def PermitsAll (p : Project) : List Edit → Prop
  | [] => True
  | e :: es => p.Permits e ∧ (p.edit e).1.PermitsAll es

theorem edits_cons (p : Project) (e : Edit) (es : List Edit) :
    p.edits (e :: es) = (p.edit e).1.edits es := rfl

theorem keyed_edits (h : p.files.Keyed) (es : List Edit) : (p.edits es).files.Keyed := by
  induction es generalizing p with
  | nil => exact h
  | cons e es ih =>
    rw [edits_cons]
    exact ih (keyed_edit h e)

theorem hasSelection_edits (h : p.HasSelection) {es : List Edit} (hes : p.PermitsAll es) :
    (p.edits es).HasSelection := by
  induction es generalizing p with
  | nil => exact h
  | cons e es ih =>
    rw [edits_cons]
    exact ih (hasSelection_edit h hes.1) hes.2

/-- Whatever edits follow on an opened project, no key occurs twice and every file has the
    path of its key.  If the selection was empty or a key, it still is.  If a deletion then
    takes the selected file, the selection becomes the first key that marks no folder, or
    empty if there is none. -/
theorem keyed_and_selected_edits (hp : p.Opened) (es : List Edit) (hes : p.PermitsAll es) :
    let q := p.edits es
    q.paths.Nodup ∧ (∀ e ∈ q.files.entries, e.2.path = e.1) ∧
      (p.HasSelection → q.HasSelection) ∧
      ∀ e : Edit, e.Removes → q.activePath ∈ q.paths → q.activePath ∉ (q.edit e).1.paths →
        (q.edit e).1.activePath =
          ((q.edit e).1.paths.find? fun k => !Path.isMarker k).getD "" := by
  intro q
  have hkeyed : q.files.Keyed := keyed_edits hp.keyed es
  refine ⟨q.files.nodup_keys, hkeyed, fun h => hasSelection_edits h hes, ?_⟩
  intro e he hmem hgone
  exact activePath_edit_of_removes he hmem hgone

/-- A stored text with a key that comes twice, and with wrong inner paths. -/
def storedText : String :=
  "\x7b\"files\":\x7b\"a/.folder\":[\"\",\"\"],\"a/b.js\":[\"x\",\"1\"],\"c.js\":[\"\",\"2\"]," ++
    "\"a/b.js\":[\"y\",\"3\"]\x7d,\"activePath\":\"c.js\"\x7d"

/-- The project of the text. -/
def storedProject : Project :=
  ⟨⟨[("a/.folder", ⟨"a/.folder", ""⟩), ("a/b.js", ⟨"a/b.js", "3"⟩), ("c.js", ⟨"c.js", "2"⟩)],
    by decide⟩, "c.js", "index.html"⟩

/-- The selected file moves onto another one, and the folder with that one is deleted. -/
theorem keyed_and_selected_edits_storedProject :
    let es : List Edit := [.rename "c.js" "a/b.js", .createFolder " e/ ", .upsert "d.js" none,
      .setActive "a/b.js"]
    let q := storedProject.edits es
    (ofStored? "p" storedText = .ok storedProject ∧ storedProject.PermitsAll es ∧
        storedProject.HasSelection) ∧
      (q.files.keys = ["a/.folder", "a/b.js", "e/.folder", "d.js"] ∧ q.HasSelection ∧
        q.activePath = "a/b.js") ∧
      Edit.Removes (.deleteFolder "a") ∧ (q.edit (.deleteFolder "a")).1.activePath = "d.js" := by
  intro es q
  have hstored : ofStored? "p" storedText = .ok storedProject := by decide
  have hes : storedProject.PermitsAll es :=
    ⟨trivial, trivial, trivial, .inr (by decide), trivial⟩
  have hselected : storedProject.HasSelection := .inr (by decide)
  obtain ⟨-, -, hkept, hremoved⟩ := keyed_and_selected_edits (.stored hstored) es hes
  refine ⟨⟨hstored, hes, hselected⟩, ⟨by decide, hkept hselected, by decide⟩,
    .deleteFolder "a", ?_⟩
  rw [hremoved _ (.deleteFolder "a") (by decide) (by decide)]
  decide

end Project

end LivePreview
