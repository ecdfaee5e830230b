/-
  LivePreview.Project.Edit

  Changes to a project.  Every edit is total: one that names a missing file, a
  blank path or a taken one is refused and leaves the project as it is.
-/

import LivePreview.Project.Basic

namespace LivePreview

namespace Project

/-! ## Edits -/

/-- Writes a file.  Without content a present file keeps its own and a new one
    is empty. -/
def upsert (p : Project) (path : String) (content : Option String) : Project :=
  let text := content.getD (((p.get? path).map File.content).getD "")
  { p with files := p.files.put path ⟨path, text⟩ }

/-- Adds an empty file, unless the path is blank or taken. -/
def createFile? (p : Project) (path : String) : Option Project :=
  if Text.isBlankText path.toList || p.contains path then none else some (p.upsert path (some ""))

/-- The folder that a path names: without the white space around it and the
    slashes at its end. -/
def folderName (path : String) : String :=
  String.ofList (Path.trimEndSlashes (Text.trim path.toList))

/-- Adds the marker of a folder, unless the folder has no name or is marked. -/
def createFolder? (p : Project) (path : String) : Option Project :=
  let folder := folderName path
  if folder.isEmpty || p.contains (Path.marker folder) then none
  else some (p.upsert (Path.marker folder) (some ""))

/-- Removes a file; if it was selected the first file is selected. -/
def delete? (p : Project) (path : String) : Option Project :=
  if p.contains path then
    let q := { p with files := p.files.erase path }
    some (if p.activePath = path then q.selectFirst else q)
  else none

/-- Removes everything in a folder and counts it; if the selected file was in
    the folder the first file is selected. -/
def deleteFolder (p : Project) (folder : String) : Project × Nat :=
  let q := { p with files := p.files.retain fun k => !Path.isWithin folder k }
  let removed := p.files.size - q.files.size
  (if removed ≠ 0 ∧ Path.isWithin folder p.activePath then q.selectFirst else q, removed)

/-- Moves a file; a file at the target is overwritten in its place. -/
def rename? (p : Project) (source target : String) : Option Project :=
  match p.get? source with
  | none => none
  | some file =>
    if source = target then some p
    else some
      { p with
        files := (p.files.erase source).put target ⟨target, file.content⟩
        activePath := if p.activePath = source then target else p.activePath }

/-- Selects a path, present or not. -/
def setActive (p : Project) (path : String) : Project := { p with activePath := path }

/-- Chooses the entry document, present or not. -/
def setEntryDocument (p : Project) (path : String) : Project := { p with entryDocument := path }

end Project

/-- An edit with its arguments. -/
inductive Edit where
  | upsert (path : String) (content : Option String)
  | createFile (path : String)
  | createFolder (path : String)
  | delete (path : String)
  | deleteFolder (folder : String)
  | rename (source target : String)
  | setActive (path : String)
  | setEntryDocument (path : String)
deriving DecidableEq

/-- What an edit reports. -/
inductive Edit.Reply where
  /-- The edit is always carried out. -/
  | done
  /-- Whether the edit was carried out. -/
  | carriedOut (yes : Bool)
  /-- How many files were removed. -/
  | removed (count : Nat)
deriving DecidableEq

namespace Project

/-- The outcome of an edit that may be refused. -/
def orRefused (p : Project) : Option Project → Project × Edit.Reply
  | some q => (q, .carriedOut true)
  | none => (p, .carriedOut false)

/-- Carries out an edit. -/
def edit (p : Project) : Edit → Project × Edit.Reply
  | .upsert path content => (p.upsert path content, .done)
  | .createFile path => p.orRefused (p.createFile? path)
  | .createFolder path => p.orRefused (p.createFolder? path)
  | .delete path => p.orRefused (p.delete? path)
  | .deleteFolder folder =>
    let (q, count) := p.deleteFolder folder
    (q, .removed count)
  | .rename source target => p.orRefused (p.rename? source target)
  | .setActive path => (p.setActive path, .done)
  | .setEntryDocument path => (p.setEntryDocument path, .done)

/-- The project after some edits. -/
def edits (p : Project) (es : List Edit) : Project := es.foldl (fun q e => (q.edit e).1) p

/-! ## Refused edits change nothing -/

theorem orRefused_eq_self {p : Project} {q : Option Project}
    (h : (p.orRefused q).2 = .carriedOut false) : (p.orRefused q).1 = p := by
  cases q with
  | none => rfl
  | some q => simp [orRefused] at h

/-- A folder without files is left as it is. -/
theorem deleteFolder_eq_self {p : Project} {folder : String}
    (h : (p.deleteFolder folder).2 = 0) : (p.deleteFolder folder).1 = p := by
  simp only [deleteFolder, Table.size, Table.retain] at h ⊢
  have hall : p.files.entries.filter (fun e => !Path.isWithin folder e.1) = p.files.entries := by
    rw [List.filter_eq_self]
    have hlen := List.length_filter_le (fun e : String × File => !Path.isWithin folder e.1)
      p.files.entries
    exact List.length_filter_eq_length_iff.mp (by omega)
  simp [hall]

/-- An edit that reports nothing carried out or removed changes nothing. -/
theorem edit_eq_self {p : Project} {e : Edit}
    (h : (p.edit e).2 = .carriedOut false ∨ (p.edit e).2 = .removed 0) : (p.edit e).1 = p := by
  cases e with
  | createFile path | createFolder path | delete path | rename path =>
    simp only [edit] at h ⊢
    rcases h with h | h
    · exact orRefused_eq_self h
    · generalize hq : orRefused p _ = r at h
      unfold orRefused at hq
      split at hq <;> subst hq <;> simp at h
  | deleteFolder folder =>
    simp only [edit, Edit.Reply.removed.injEq, reduceCtorEq, false_or] at h ⊢
    exact deleteFolder_eq_self h
  | upsert | setActive | setEntryDocument => simp [edit] at h

end Project

end LivePreview
