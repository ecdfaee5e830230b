/-
  LivePreview.Command.Run

  Carries out a command line.  All files are read and all checks made before the
  one file that is written, so a command that fails leaves everything as it was.

  The commands reach files only through `Files`, which is given for a disk in
  memory here and for the real one by the program.
-/

import LivePreview.Command.Arguments
import LivePreview.Disk.Access
import LivePreview.Disk.Import
import LivePreview.Options.Json
import LivePreview.Preview
import LivePreview.Tree.Json

namespace LivePreview.Command

/-- The access to files that the commands need. -/
structure Files (m : Type → Type) where
  /-- The text of a file. -/
  readText : String → m (Except Refusal String)
  /-- What is in a folder. -/
  contents : String → m (Except Refusal (List (Place × Disk.Entry)))
  /-- Writes the text of a file. -/
  writeText : String → String → m (Except Refusal Unit)

/-- The access to a disk in memory. -/
def Files.ofDisk : Files (StateM Disk) where
  readText path := fun d => (d.readText path, d)
  contents path := fun d => (d.contents path, d)
  writeText path text := fun d => d.writeText path text

/-- Why a command failed. -/
inductive Failure where
  | unreadableConfig (path : String)
  | malformedConfig (path : String)
  | unreadableFolder (path : String)
  | notBuilt (error : BuildError)
  | unwritable (path : String)
deriving DecidableEq

/-- The text shown for the failure. -/
def Failure.message : Failure → String
  | unreadableConfig path => "failed to read config " ++ path
  | malformedConfig path => "invalid config " ++ path
  | unreadableFolder path => "failed to import " ++ path
  | notBuilt error => error.message
  | unwritable path => "failed to write " ++ path

/-- How a command line ended. -/
inductive Outcome where
  /-- The command did its work and printed this. -/
  | done (output : String)
  | failed (failure : Failure)
  /-- The command line was not understood. -/
  | misused
deriving DecidableEq

namespace Outcome

/-- The number the program ends with. -/
def exitCode : Outcome → Nat
  | done _ => 0
  | failed _ => 1
  | misused => 2

/-- What is printed. -/
def output : Outcome → String
  | done output => output
  | _ => ""

/-- The failure, if there was one. -/
def failure? : Outcome → Option Failure
  | failed failure => some failure
  | _ => none

end Outcome

/-- What `--version` prints. -/
def versionText : String := "playground 0.1.0\n"

variable {m : Type → Type} [Monad m]

/-- The options in a file; without a file, those that hold when nothing is set. -/
def loadOptions (files : Files m) : Option String → m (Except Failure Options)
  | none => pure (.ok {})
  | some path => do
    match ← files.readText path with
    | .error _ => pure (.error (.unreadableConfig path))
    | .ok text =>
      match Options.ofJson? text with
      | .error _ => pure (.error (.malformedConfig path))
      | .ok options => pure (.ok options)

/-- The project in a folder. -/
def loadProject (files : Files m) (folder : String) : m (Except Failure Project) := do
  match ← files.contents folder with
  | .error _ => pure (.error (.unreadableFolder folder))
  | .ok entries =>
    match Project.ofEntries folder entries with
    | .error _ => pure (.error (.unreadableFolder folder))
    | .ok project => pure (.ok project)

/-- Writes a page into a file, or prints it. -/
def deliver (files : Files m) (html : String) : Option String → m Outcome
  | none => pure (.done (html ++ "\n"))
  | some path => do
    match ← files.writeText path html with
    | .error _ => pure (.failed (.unwritable path))
    | .ok () => pure (.done "")

/-- Builds a folder. -/
def runBuild (files : Files m) (folder : String) (out config : Option String) : m Outcome := do
  match ← loadOptions files config with
  | .error e => pure (.failed e)
  | .ok options =>
    match ← loadProject files folder with
    | .error e => pure (.failed e)
    | .ok project =>
      match Preview.build options project with
      | .error e => pure (.failed (.notBuilt e))
      | .ok preview => deliver files preview.document.html out

/-- Prints the folder view of a folder. -/
def runTree (files : Files m) (folder : String) : m Outcome := do
  match ← loadProject files folder with
  | .error e => pure (.failed e)
  | .ok project =>
    pure (.done ((Tree.toJson (Tree.ofPaths project.paths)).pretty ++ "\n"))

/-- Carries out a request. -/
def Request.run (files : Files m) : Request → m Outcome
  | version => pure (.done versionText)
  | build folder out config => runBuild files folder out config
  | tree folder => runTree files folder

/-- Carries out a command line. -/
def run (files : Files m) (args : List String) : m Outcome :=
  match request? args with
  | none => pure .misused
  | some request => request.run files

end LivePreview.Command
