/-
  LivePreview.Disk.Basic

  A disk: folders, files and links by the names that lead to them from the top.
  Reading a path walks it name by name: `.` and the empty name stay, `..` goes up,
  and a link goes on with its target.  Names and paths that are too long, and
  paths with a zero character, lead nowhere.
-/

import LivePreview.Entries
import LivePreview.Text.Segments

namespace LivePreview

/-- Why the disk refuses. -/
inductive Refusal where
  | missing
  | taken
  | notFolder
  | isFolder
  | tooManyLinks
  /-- The path or one of its names has too many bytes. -/
  | tooLong
  /-- The path holds a zero character. -/
  | zeroCharacter
  /-- A file read as text is not UTF-8. -/
  | notText
deriving DecidableEq

/-- The text of the refusal. -/
def Refusal.message : Refusal → String
  | missing => "No such file or directory (os error 2)"
  | taken => "File exists (os error 17)"
  | notFolder => "Not a directory (os error 20)"
  | isFolder => "Is a directory (os error 21)"
  | tooManyLinks => "Too many levels of symbolic links (os error 40)"
  | tooLong => "File name too long (os error 36)"
  | zeroCharacter => "file name contained an unexpected NUL byte"
  | notText => "stream did not contain valid UTF-8"

/-- The names that lead to a place from the top. -/
abbrev Place : Type := List String

namespace Disk

-- Contents are compared as in the core library, whatever else is in scope.
local instance decidableEqBytes : DecidableEq ByteArray := ByteArray.instDecidableEq

/-- What can be at a place. -/
inductive Entry where
  | folder
  | file (bytes : ByteArray)
  | link (target : String)
deriving DecidableEq

end Disk

/-- What is on the disk below the top, and the place where relative paths
    begin. -/
structure Disk where
  entries : List (Place × Disk.Entry)
  here : Place
deriving DecidableEq

namespace Disk

/-! ## Places -/

/-- A disk with nothing on it. -/
def empty : Disk := ⟨[], []⟩

/-- What is at a place; the top is a folder. -/
def get? (d : Disk) (place : Place) : Option Entry :=
  if place = [] then some .folder else d.entries.lookup place

/-- Puts something at a place. -/
def put (d : Disk) (place : Place) (entry : Entry) : Disk :=
  { d with entries := Entries.put place entry d.entries }

/-- What is below a place, at any depth, by the names that lead there from it. -/
def below (d : Disk) (place : Place) : List (Place × Entry) :=
  d.entries.filterMap fun e =>
    if place.isPrefixOf e.1 && e.1.length != place.length then
      some (e.1.drop place.length, e.2)
    else none

theorem get?_put_self {place : Place} (h : place ≠ []) (d : Disk) (entry : Entry) :
    (d.put place entry).get? place = some entry := by
  rw [get?, if_neg h]
  exact Entries.lookup_put_self place entry d.entries

theorem get?_put_of_ne {place other : Place} (h : other ≠ place) (d : Disk) (entry : Entry) :
    (d.put place entry).get? other = d.get? other := by
  rw [get?, get?, put, Entries.lookup_put_of_ne h]

/-! ## Walking -/

/-- The names of a path; the empty names between slashes are left out. -/
def names (path : String) : List String :=
  ((path.toList.splitOn '/').filter (!·.isEmpty)).map String.ofList

/-- The path begins at the top. -/
def isAbsolute (path : String) : Bool := path.toList.head? == some '/'

/-- The path ends in a slash. -/
def endsInSlash (path : String) : Bool := path.toList.getLast? == some '/'

/-- Where relative names of a path begin. -/
def origin (start : Place) (path : String) : Place := if isAbsolute path then [] else start

/-- The names of a path, and the empty name behind a slash at its end. -/
def namesToEnd (path : String) : List String :=
  if endsInSlash path then names path ++ [""] else names path

/-- What a path is walked for. -/
inductive Purpose where
  /-- To make something new at its end; a link there is not followed. -/
  | make
  /-- To reach what is at its end. -/
  | reach
  /-- To write the file at its end, which may be missing. -/
  | write
deriving DecidableEq

/-- Where a path leads. -/
inductive Target where
  /-- To something that is there. -/
  | present (place : Place) (entry : Entry)
  /-- To nothing yet, in a folder that is there. -/
  | absent (place : Place)
deriving DecidableEq

/-- The bytes that a name may have. -/
def maxNameBytes : Nat := 255

/-- The bytes that a path may have. -/
def maxPathBytes : Nat := 4095

/-- Follows names from a folder.  At a link that is not the last name, or that is
    to be followed all the same, `onLink` goes on with the names of its target.  A
    file to be written has no slash behind its name; with one, the name is refused
    before it is looked up. -/
def follow (d : Disk) (purpose : Purpose) (onLink : Place → List String → Except Refusal Target) :
    Place → List String → Except Refusal Target
  | place, [] => .ok (.present place .folder)
  | place, name :: rest =>
    if name = "" ∨ name = "." then follow d purpose onLink place rest
    else if name = ".." then follow d purpose onLink place.dropLast rest
    else if purpose = .write ∧ rest = [""] then .error .isFolder
    else if maxNameBytes < name.utf8ByteSize then .error .tooLong
    else
      let next := place ++ [name]
      match d.get? next with
      | none => if rest.isEmpty then .ok (.absent next) else .error .missing
      | some .folder => follow d purpose onLink next rest
      | some (.file bytes) =>
        if rest.isEmpty then .ok (.present next (.file bytes)) else .error .notFolder
      | some (.link target) =>
        -- A relative target begins in the folder that holds the link.
        if rest.isEmpty ∧ purpose = .make then .ok (.present next (.link target))
        else onLink (origin place target) (namesToEnd target ++ rest)

/-- Follows names through at most so many links. -/
def followLinks (d : Disk) (purpose : Purpose) : Nat → Place → List String → Except Refusal Target
  | 0 => d.follow purpose fun _ _ => .error .tooManyLinks
  | n + 1 => d.follow purpose (followLinks d purpose n)

/-- Why a path leads nowhere, whatever is on the disk. -/
def refusal? (path : String) : Option Refusal :=
  if path.toList.contains '\x00' then some .zeroCharacter
  else if path.isEmpty then some .missing
  else if maxPathBytes < path.utf8ByteSize then some .tooLong
  else none

/-- Where a path leads.  What is made may have slashes behind its name. -/
def resolve (d : Disk) (purpose : Purpose) (path : String) : Except Refusal Target :=
  match refusal? path with
  | some e => .error e
  | none =>
    d.followLinks purpose 40 (origin d.here path)
      (if purpose = .make then names path else namesToEnd path)

/-- What is at the end of a path. -/
def find (d : Disk) (path : String) : Except Refusal (Place × Entry) :=
  match d.resolve .reach path with
  | .error e => .error e
  | .ok (.absent _) => .error .missing
  | .ok (.present place entry) => .ok (place, entry)

/-- The path leads to a folder. -/
def isFolder (d : Disk) (path : String) : Bool :=
  match d.find path with
  | .ok (_, .folder) => true
  | _ => false

end Disk

end LivePreview
