/-
  LivePreview.Disk.Access

  Reading and writing files, and making folders and links.  An operation gives the disk as
  it is afterwards, also when it is refused.
-/

import LivePreview.Disk.Basic

namespace LivePreview.Disk

/-! ## Paths -/

/-- The path with another one behind it; an absolute path replaces it. -/
def joinPath (path behind : String) : String :=
  if isAbsolute behind then behind
  else if path.isEmpty || endsInSlash path then path ++ behind
  else path ++ "/" ++ behind

/-- A reversed path without the slashes and single dots at its end; a path made of
    slashes alone keeps one. -/
def trimReversed : List Char → List Char
  | ['/'] => ['/']
  | '/' :: rest => trimReversed rest
  | ['.', '/'] => ['/']
  | '.' :: '/' :: rest => trimReversed ('/' :: rest)
  | s => s
termination_by s => s.length

/-- The path without its last name; the top and the empty path have no parent. -/
def parent? (path : String) : Option String :=
  match trimReversed path.toList.reverse with
  | [] => none
  | ['/'] => none
  | s =>
    some (String.ofList (trimReversed (s.dropWhile (· != '/'))).reverse)

/-- The path, its parent, and so on. -/
def ancestorsWithin : Nat → String → List String
  | 0, _ => []
  | n + 1, path =>
    match parent? path with
    | none => []
    | some up => path :: ancestorsWithin n up

/-- The path and the parents above it that could be made as folders, the deepest
    first.  Each parent is shorter. -/
def ancestors (path : String) : List String := ancestorsWithin path.toList.length path

/-! ## Files -/

/-- The bytes of a file. -/
def readBytes (d : Disk) (path : String) : Except Refusal ByteArray :=
  match d.find path with
  | .error e => .error e
  | .ok (_, .file bytes) => .ok bytes
  | .ok _ => .error .isFolder

/-- The text of a file. -/
def readText (d : Disk) (path : String) : Except Refusal String :=
  match d.readBytes path with
  | .error e => .error e
  | .ok bytes =>
    match String.fromUTF8? bytes with
    | some text => .ok text
    | none => .error .notText

/-- Writes the bytes of a file, making it if it is not there. -/
def writeBytes (d : Disk) (path : String) (bytes : ByteArray) : Except Refusal Unit × Disk :=
  match d.resolve .write path with
  | .error e => (.error e, d)
  | .ok (.present place (.file _)) | .ok (.absent place) => (.ok (), d.put place (.file bytes))
  | .ok (.present ..) => (.error .isFolder, d)

/-- Writes the text of a file. -/
def writeText (d : Disk) (path text : String) : Except Refusal Unit × Disk :=
  d.writeBytes path text.toUTF8

/-- Makes something where nothing is, in a folder that is there. -/
def make (d : Disk) (path : String) (entry : Entry) : Except Refusal Unit × Disk :=
  match d.resolve .make path with
  | .error e => (.error e, d)
  | .ok (.present ..) => (.error .taken, d)
  | .ok (.absent place) => (.ok (), d.put place entry)

/-- Makes a link to a target. -/
def makeLink (d : Disk) (target path : String) : Except Refusal Unit × Disk :=
  d.make path (.link target)

/-! ## Folders -/

/-- Makes one folder. -/
def makeFolder (d : Disk) (path : String) : Except Refusal Unit × Disk := d.make path .folder

/-- Makes the first of some folders, after the ones above it if these are
    missing. -/
def makeFoldersFrom (d : Disk) : List String → Except Refusal Unit × Disk
  | [] => (.ok (), d)
  | path :: above =>
    match d.makeFolder path with
    | (.ok (), d) => (.ok (), d)
    | (.error .missing, _) =>
      -- Only a missing parent sends the work up; any other refusal is final.
      match makeFoldersFrom d above with
      | (.error e, d) => (.error e, d)
      | (.ok (), d) =>
        match d.makeFolder path with
        | (.ok (), d) => (.ok (), d)
        | (.error e, d) => (if e = .taken ∧ d.isFolder path then .ok () else .error e, d)
    | (.error e, d) => (if e = .taken ∧ d.isFolder path then .ok () else .error e, d)

/-- Makes a folder and the ones above it, as far as they are missing. -/
def makeFolders (d : Disk) (path : String) : Except Refusal Unit × Disk :=
  d.makeFoldersFrom (ancestors path)

end LivePreview.Disk
