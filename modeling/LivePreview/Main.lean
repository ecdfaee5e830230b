/-
  LivePreview.Main

  The program: carries out its command line on the real disk.
-/

import LivePreview.Command.Run

namespace LivePreview.Program

/-- The refusal that an error of the real disk stands for. -/
def refusalOf : IO.Error → Refusal
  | .noFileOrDirectory .. | .noSuchThing .. => .missing
  | .alreadyExists .. => .taken
  | .inappropriateType .. => .notFolder
  | .illegalOperation .. => .isFolder
  | .invalidArgument .. => .tooLong
  | _ => .missing

/-- The outcome of an action on the real disk. -/
def attempt {α : Type} (action : IO α) : IO (Except Refusal α) := do
  match ← action.toBaseIO with
  | .ok a => pure (.ok a)
  | .error e => pure (.error (refusalOf e))

/-- What is in a folder of the real disk, at any depth. -/
partial def walk (place : Place) (path : String) : IO (List (Place × Disk.Entry)) := do
  let mut found := #[]
  for entry in ← (← IO.FS.realPath path).readDir do
    let inner := place ++ [entry.fileName]
    let innerPath := path ++ "/" ++ entry.fileName
    match (← entry.path.symlinkMetadata).type with
    | .dir => found := found.push (inner, .folder) ++ (← walk inner innerPath)
    | .file => found := found.push (inner, .file (← IO.FS.readBinFile entry.path))
    | _ => found := found.push (inner, .link "")
  return found.toList

/-- What is at the end of a path of the real disk, if that is a folder. -/
def contents (path : String) : IO (List (Place × Disk.Entry)) := do
  let root ← IO.FS.realPath path
  match (← root.metadata).type with
  | .dir => walk [] path
  | _ => pure []

/-- The text of a file of the real disk. -/
def readText (path : String) : IO (Except Refusal String) := do
  match ← attempt (IO.FS.readBinFile path) with
  | .error e => pure (.error e)
  | .ok bytes =>
    match String.fromUTF8? bytes with
    | some text => pure (.ok text)
    | none => pure (.error .notText)

/-- The access to the real disk. -/
def files : Command.Files IO where
  readText := readText
  contents path := attempt (contents path)
  writeText path text := attempt (IO.FS.writeFile path text)

end LivePreview.Program

open LivePreview in
/-- Carries out the command line.  Output goes to the standard output, a failure to
    the standard error. -/
def main (args : List String) : IO UInt32 := do
  let outcome ← Command.run Program.files args
  IO.print outcome.output
  if let some failure := outcome.failure? then
    IO.eprintln ("Error: " ++ failure.message)
  if outcome = .misused then
    IO.eprintln "usage: playground [--verbose] build DIR [--out FILE] [--config FILE] | tree DIR"
  return .ofNat outcome.exitCode
