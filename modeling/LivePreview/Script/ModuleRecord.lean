/-
  LivePreview.Script.ModuleRecord

  What a script file exports and imports, as far as the recorded shapes show it:
  one default export by name, exported declarations, and imports of a default.
-/

import LivePreview.Pattern.Replace
import LivePreview.Script.Shape

namespace LivePreview.Script

/-- A name under which a module exports one of its bindings. -/
structure ExportBinding where
  exportedName : String
  localName : String
deriving DecidableEq

/-- A name that a module binds to the default export of another. -/
structure ImportBinding where
  localName : String
  specifier : String
deriving DecidableEq

/-- The exports and imports of one file, in the order they are recorded. -/
structure ModuleRecord where
  path : String
  exports : List ExportBinding
  imports : List ImportBinding
deriving DecidableEq

/-- The exported name of a default export. -/
def defaultName : String := "default"

/-- Words that can follow `export default` without naming a binding. -/
def nonBindingWords : List String :=
  ["async", "await", "class", "false", "function", "new", "null", "this", "true", "typeof",
    "void"]

namespace ModuleRecord

/-- The binding behind the default export, if one was recorded. -/
def defaultExport? (r : ModuleRecord) : Option String :=
  (r.exports.find? (·.exportedName == defaultName)).map (·.localName)

/-- The default export that a source shows: the name after its first
    `export default`, unless that is a word that names no binding. -/
def defaultExports (source : List Char) : List ExportBinding :=
  match Shape.defaultExport.first? source with
  | some m =>
    let name := String.ofList (m.group 0)
    if name ∈ nonBindingWords then [] else [⟨defaultName, name⟩]
  | none => []

/-- The exported declarations of a source. -/
def namedExports (source : List Char) : List ExportBinding :=
  (Shape.namedExport.allMatches source).map fun m =>
    let name := String.ofList (m.group 0)
    ⟨name, name⟩

/-- The default imports of a source. -/
def defaultImports (source : List Char) : List ImportBinding :=
  (Shape.defaultImport.allMatches source).map fun m =>
    ⟨String.ofList (m.group 0), String.ofList (m.group 1)⟩

/-- The record of a file. -/
def ofSource (path source : String) : ModuleRecord where
  path := path
  exports := defaultExports source.toList ++ namedExports source.toList
  imports := defaultImports source.toList

end ModuleRecord

end LivePreview.Script
