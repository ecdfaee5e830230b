/-
  LivePreview.Disk.Export

  A project written into a folder, file by file in the order of the project.
  Markers become folders.  A path that could lead out of the folder is passed
  over; the first refusal of the disk ends the export.
-/

import LivePreview.Disk.Access
import LivePreview.Library.Error
import LivePreview.Project.Basic

namespace LivePreview.Disk

/-- The path is relative, does not begin with the name `.` and nowhere goes up, so
    it leads to a place below the folder it is joined to. -/
def isContained (path : String) : Bool :=
  let segments := path.toList.splitOn '/'
  !isAbsolute path && segments.head? != some ['.'] && !segments.contains ['.', '.']

/-- The outcome of an operation on a path. -/
def atPath (path : String) : Except Refusal Unit → Except LibraryError Unit
  | .ok () => .ok ()
  | .error e => .error (.io path e.message)

/-- Makes a folder and the ones above it. -/
def exportFolder (d : Disk) (path : String) : Except LibraryError Unit × Disk :=
  let (result, d) := d.makeFolders path
  (atPath path result, d)

/-- Writes a text after making the folders above it. -/
def exportText (d : Disk) (path text : String) : Except LibraryError Unit × Disk :=
  let (made, d) :=
    match parent? path with
    | some folder => d.exportFolder folder
    | none => (.ok (), d)
  match made with
  | .error e => (.error e, d)
  | .ok () =>
    let (result, d) := d.writeText path text
    (atPath path result, d)

/-- Writes one file of a project. -/
def exportFile (d : Disk) (root : String) (f : File) : Except LibraryError Unit × Disk :=
  if isContained f.path then
    match Path.markedFolder? f.path with
    | some folder => d.exportFolder (joinPath root folder)
    | none => d.exportText (joinPath root f.path) f.content
  else (.ok (), d)

/-- Writes some files, up to the first refusal. -/
def exportFiles (root : String) : Disk → List File → Except LibraryError Unit × Disk
  | d, [] => (.ok (), d)
  | d, f :: rest =>
    match d.exportFile root f with
    | (.error e, d) => (.error e, d)
    | (.ok (), d) => exportFiles root d rest

/-- Writes a project into the folder at the end of a path. -/
def exportProject (d : Disk) (root : String) (project : Project) :
    Except LibraryError Unit × Disk :=
  exportFiles root d project.files.values

end LivePreview.Disk
