/-
  LivePreview.Bundle

  The scripts of a project joined into one: the declaration of the shared slot,
  a binding for every recorded import, then each stripped module under a comment
  with its path.

  All modules share one slot for their default exports, so the last one that
  assigns it wins.
-/

import LivePreview.EntryPoint
import LivePreview.Json.Quoted
import LivePreview.Options
import LivePreview.Resolution
import LivePreview.Script.StrippedModule

namespace LivePreview

open Script

/-- The joined scripts of a project and what they were made of. -/
structure Bundle where
  modules : List ModuleRecord
  imports : List ResolvedImport
  stripped : List StrippedModule
  /-- The bindings of the imports. -/
  resolutionCode : String
  /-- The stripped modules. -/
  body : String
  /-- The slot, the bindings and the modules. -/
  code : String
  hints : EntryHints
deriving DecidableEq

/-- The files that take part in a build, in order. -/
def Project.scripts (p : Project) : List File := p.files.values.filter File.isAnalyzable

namespace Bundle

/-! ## Imports -/

/-- The imports of all modules, looked up in the project. -/
def resolveImports (project : Project) (modules : List ModuleRecord) : List ResolvedImport :=
  modules.flatMap fun m => m.imports.map fun binding =>
    ⟨m.path, binding, Resolution.find project m.path binding.specifier⟩

/-- The default export of the module with that path; of several with the path
    the last one counts. -/
def defaultExportOf? (modules : List ModuleRecord) (path : String) : Option String :=
  (modules.reverse.find? (·.path == path)).bind (·.defaultExport?)

/-- Binds a name to the placeholder, unless the page provides it. -/
def placeholderBinding (name placeholder : String) : String :=
  "var " ++ name ++ " = typeof " ++ name ++ " !== \"undefined\" ? " ++ name ++ " : " ++
    placeholder ++ ";\n"

/-- Binds a name to another global, or to the placeholder if that is not set. -/
def globalBinding (name global path placeholder : String) : String :=
  "var " ++ name ++ " = (function () \x7b try \x7b return " ++ global ++
    "; \x7d catch (e) \x7b console.warn(" ++
    Json.quote ("Import " ++ name ++ " from " ++ path ++ " failed:") ++ ", e); return " ++
    placeholder ++ "; \x7d \x7d)();\n"

/-- The code for one import: a comment, and a binding unless the name is already
    declared by the module it comes from. -/
def importCode (modules : List ModuleRecord) (placeholder : String) (i : ResolvedImport) :
    String :=
  let name := i.binding.localName
  match i.resolution with
  | .unresolved =>
    "// Import not found: " ++ name ++ " from " ++ i.binding.specifier ++ "\n" ++
      placeholderBinding name placeholder
  | .resolved path _ =>
    let heading := "// Import resolution for " ++ i.importer ++ ": "
    match defaultExportOf? modules path with
    | none =>
      heading ++ path ++ " has no default export\n" ++ placeholderBinding name placeholder
    | some global =>
      if global = name then heading ++ name ++ " is declared by " ++ path ++ "\n"
      else
        heading ++ name ++ " from " ++ path ++ "\n" ++ globalBinding name global path placeholder

/-- The code for all imports. -/
def importsCode (modules : List ModuleRecord) (placeholder : String)
    (imports : List ResolvedImport) : String :=
  String.join (imports.map (importCode modules placeholder))

/-! ## Modules -/

/-- A stripped module under a comment with its path. -/
def titled (m : StrippedModule) : String := "\n// === " ++ m.path ++ " ===\n" ++ m.code ++ "\n"

/-- All stripped modules. -/
def bodyOf (stripped : List StrippedModule) : String := String.join (stripped.map titled)

/-! ## Hints -/

/-- The names of the component functions in a text, each once. -/
def componentNames (body : List Char) : List String :=
  ((Shape.componentFunction.allMatches body).map fun m => String.ofList (m.group 0)).eraseDups

/-- The last module that assigns the shared slot. -/
def lastWriter? (stripped : List StrippedModule) : Option String :=
  (stripped.reverse.find? (·.writesSharedSlot)).map (·.path)

/-- The hints that the parts of a bundle give. -/
def hintsOf (imports : List ResolvedImport) (stripped : List StrippedModule) (body : String) :
    EntryHints where
  definesApp :=
    Shape.appDeclaration.occursIn body.toList || imports.any (·.binding.localName == "App")
  sharedSlotWriter := lastWriter? stripped
  componentCandidates := componentNames body.toList

/-! ## Building -/

/-- The bundle of some files with their records. -/
def assemble (options : Options) (project : Project) (files : List File)
    (modules : List ModuleRecord) : Bundle :=
  let slot := options.sharedDefaultSlot
  let imports := resolveImports project modules
  let stripped := files.map fun f => StrippedModule.ofSource f.path f.content slot
  let resolutionCode := importsCode modules options.placeholderLiteral imports
  let body := bodyOf stripped
  { modules, imports, stripped, resolutionCode, body
    code := "var " ++ slot ++ ";\n" ++ resolutionCode ++ body
    hints := hintsOf imports stripped body }

/-- The files to build, once the options are valid; there must be one. -/
def filesToBuild (options : Options) (project : Project) : Except BuildError (List File) :=
  match options.validate with
  | .error e => .error e
  | .ok () => if project.scripts.isEmpty then .error .noScriptFiles else .ok project.scripts

/-- The record of a file. -/
def recordOf (f : File) : ModuleRecord := ModuleRecord.ofSource f.path f.content

/-- Builds the bundle of a project. -/
def build (options : Options) (project : Project) : Except BuildError Bundle :=
  (filesToBuild options project).map fun files =>
    assemble options project files (files.map recordOf)

/-- A bundle is built exactly when the options are valid and a script takes part, and it is
    made of the scripts of the project. -/
theorem build_eq_ok_iff {options : Options} {project : Project} {b : Bundle} :
    build options project = .ok b ↔
      options.validate = .ok () ∧ project.scripts ≠ [] ∧
        assemble options project project.scripts (project.scripts.map recordOf) = b := by
  unfold build filesToBuild
  cases options.validate with
  | error e => simp [Except.map]
  | ok u =>
    by_cases h : project.scripts = [] <;> simp [h, Except.map]

end Bundle

end LivePreview
