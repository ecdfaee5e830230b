/-
  LivePreview.Resolution

  Where an import leads.  Only specifiers that begin with `./` are looked up,
  next to the importer: first the bare path, then the path with each script
  extension.  The first candidate that is a key wins.
-/

import LivePreview.Project.Basic
import LivePreview.Script.ModuleRecord

namespace LivePreview

/-- The outcome of looking an import up. -/
inductive Resolution where
  /-- The key that wins, and the candidates behind it that are keys too. -/
  | resolved (path : String) (shadowed : List String)
  | unresolved
deriving DecidableEq

namespace Resolution

/-- The key that wins, if there is one. -/
def path? : Resolution → Option String
  | resolved path _ => some path
  | unresolved => none

/-- All keys found, the winner first. -/
def hits : Resolution → List String
  | resolved path shadowed => path :: shadowed
  | unresolved => []

/-- The outcome of finding these candidates, in order. -/
def ofHits : List String → Resolution
  | [] => unresolved
  | path :: shadowed => resolved path shadowed

@[simp] theorem hits_ofHits (paths : List String) : (ofHits paths).hits = paths := by
  cases paths <;> rfl

@[simp] theorem path?_ofHits (paths : List String) : (ofHits paths).path? = paths.head? := by
  cases paths <;> rfl

/-- The specifier without its leading `./`, if it has one. -/
def relative? (specifier : String) : Option String :=
  match specifier.toList with
  | '.' :: '/' :: rest => some (String.ofList rest)
  | _ => none

/-- A path next to the importer. -/
def beside (importer rest : String) : String :=
  let folder := Path.parent importer
  if folder.isEmpty then rest else folder ++ "/" ++ rest

/-- The candidates of a specifier, in the order they are tried. -/
def candidates (importer specifier : String) : List String :=
  match relative? specifier with
  | none => []
  | some rest =>
    let base := beside importer rest
    base :: Path.scriptExtensions.map fun extension => base ++ "." ++ extension

/-- Looks a specifier up among the keys of a project. -/
def find (project : Project) (importer specifier : String) : Resolution :=
  ofHits ((candidates importer specifier).filter project.contains)

/-- The candidates that are keys, in their order. -/
theorem hits_find (project : Project) (importer specifier : String) :
    (find project importer specifier).hits =
      (candidates importer specifier).filter project.contains :=
  hits_ofHits _

end Resolution

/-- An import of a module and where it leads. -/
structure ResolvedImport where
  importer : String
  binding : Script.ImportBinding
  resolution : Resolution
deriving DecidableEq

end LivePreview
