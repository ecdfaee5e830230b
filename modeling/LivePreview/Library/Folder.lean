/-
  LivePreview.Library.Folder

  Projects kept in a folder, one JSON file for each id.
-/

import LivePreview.Disk.Access
import LivePreview.Library.Memory

namespace LivePreview

namespace FolderLibrary

/-- Two dots in a row. -/
def hasTwoDots : List Char → Bool
  | '.' :: '.' :: _ => true
  | _ :: rest => hasTwoDots rest
  | [] => false

/-- The id can be the name of a file in the folder: it is not blank, has no
    slash or backslash, and no two dots in a row. -/
def isValidId (id : String) : Bool :=
  let cs := id.toList
  !Text.isBlankText cs && !cs.contains '/' && !cs.contains '\\' && !hasTwoDots cs

/-- The file of an id in the folder. -/
def filePath (root id : String) : String := Disk.joinPath root (id ++ ".json")

/-- Loads a project. -/
def load (d : Disk) (root id : String) : Except LibraryError Project :=
  if isValidId id then
    match d.readText (filePath root id) with
    | .ok text => Project.ofStored? id text
    | .error .missing => .error (.notFound id)
    | .error e => .error (.io (filePath root id) e.message)
  else .error (.invalidId id)

/-- Loads a project; the starter project if that fails. -/
def loadOrStarter (d : Disk) (root id : String) : Project := .orStarter (load d root id)

/-- Stores a project, making the folder if it is missing. -/
def save (d : Disk) (root id : String) (project : Project) : Except LibraryError Unit × Disk :=
  if isValidId id then
    match d.makeFolders root with
    | (.error e, d) => (.error (.io root e.message), d)
    | (.ok (), d) =>
      match d.writeText (filePath root id) project.toJson.pretty with
      | (.error e, d) => (.error (.io (filePath root id) e.message), d)
      | (.ok (), d) => (.ok (), d)
  else (.error (.invalidId id), d)

/-- An id that is no file name is refused, and nothing is written. -/
theorem save_of_not_isValidId {id : String} (h : isValidId id = false) (d : Disk)
    (root : String) (project : Project) :
    save d root id project = (.error (.invalidId id), d) := by
  simp [save, h]

end FolderLibrary

end LivePreview
