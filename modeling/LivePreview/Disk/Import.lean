/-
  LivePreview.Disk.Import

  A folder read as a project.  Names are taken in the order of their bytes and the
  content of a folder right at its place.  Folders with nothing in them become
  markers; links, and files that are not UTF-8 or cannot be opened, are left out.
  A folder that cannot be opened ends the reading.
-/

import LivePreview.Disk.Access
import LivePreview.Library.Error
import LivePreview.Project.Basic

namespace LivePreview

namespace Disk

/-- What is in the folder at the end of a path; nothing if a file is there. -/
def contents (d : Disk) (root : String) : Except Refusal (List (Place × Entry)) :=
  match d.find root with
  | .error e => .error e
  | .ok (place, .folder) => .ok (d.below place)
  | .ok _ => .ok []

/-- The entries in the order of their names. -/
def inOrder (entries : List (Place × Entry)) : List (Place × Entry) :=
  entries.mergeSort fun x y => !List.lex y.1 x.1

/-- Something lies in the folder at the place. -/
def isOccupied (entries : List (Place × Entry)) (place : Place) : Bool :=
  entries.any fun e => place.isPrefixOf e.1 && e.1.length != place.length

/-- The key of a place. -/
def keyOf (place : Place) : String := "/".intercalate place

/-- The path at which something in a folder is opened. -/
def pathIn (root : String) (place : Place) : String := joinPath root (keyOf place)

/-- The path of the first folder that cannot be opened, and why. -/
def unopened? (root : String) (entries : List (Place × Entry)) : Option (String × Refusal) :=
  (inOrder entries).findSome? fun
    | (place, .folder) => (refusal? (pathIn root place)).map fun e => (pathIn root place, e)
    | _ => none

/-- The file of a project that an entry becomes, if it becomes one. -/
def imported? (root : String) (entries : List (Place × Entry)) :
    Place × Entry → Option (String × String)
  | (place, .folder) =>
    if isOccupied entries place then none else some (Path.marker (keyOf place), "")
  | (place, .file bytes) =>
    if (refusal? (pathIn root place)).isSome then none
    else (String.fromUTF8? bytes).map fun text => (keyOf place, text)
  | (_, .link _) => none

end Disk

/-- The project of the entries in the folder at the end of a path. -/
def Project.ofEntries (root : String) (entries : List (Place × Disk.Entry)) :
    Except LibraryError Project :=
  match Disk.unopened? root entries with
  | some (path, e) => .error (.io path e.message)
  | none => .ok (.ofFiles ((Disk.inOrder entries).filterMap (Disk.imported? root entries)))

/-- The error of a folder that cannot be read. -/
def LibraryError.import (root : String) (refusal : Refusal) : LibraryError :=
  .io root ("IO error for operation on " ++ root ++ ": " ++ refusal.message)

/-- Reads the folder at the end of a path as a project. -/
def Disk.importProject (d : Disk) (root : String) : Except LibraryError Project :=
  match d.contents root with
  | .error e => .error (.import root e)
  | .ok entries => Project.ofEntries root entries

end LivePreview
