/-
  LivePreview.Project.Basic

  A project: text files by path in the order they were added, the path of the
  selected file, and the path of the entry document.
-/

import LivePreview.Project.Path
import LivePreview.Table

namespace LivePreview

/-- A file.  In a project that was read from elsewhere its path may differ from
    the key it is stored under. -/
structure File where
  path : String
  content : String
deriving DecidableEq

/-- Only script files with more than white space in them take part in a build. -/
def File.isAnalyzable (f : File) : Bool :=
  Path.hasScriptExtension f.path && !Text.isBlankText f.content.toList

/-- A project at one point in time. -/
structure Project where
  files : Table File
  activePath : String
  entryDocument : String
deriving DecidableEq

namespace Project

/-- The entry document of a project that names none. -/
def defaultEntryDocument : String := "index.html"

/-- A project without files. -/
def empty : Project := ⟨.empty, "", defaultEntryDocument⟩

instance : Inhabited Project := ⟨empty⟩

/-- The keys in the order they were added. -/
def paths (p : Project) : List String := p.files.keys

/-- The key is present. -/
def contains (p : Project) (path : String) : Bool := p.files.contains path

/-- The file stored under a key. -/
def get? (p : Project) (path : String) : Option File := p.files.get? path

/-- The first key that marks no folder. -/
def firstFile? (p : Project) : Option String := p.paths.find? fun k => !Path.isMarker k

/-- The project with its first file selected, or nothing if it has none. -/
def selectFirst (p : Project) : Project := { p with activePath := p.firstFile?.getD "" }

/-- The project of these paths and contents, added in order. -/
def ofFiles (files : List (String × String)) : Project :=
  selectFirst { empty with files := .ofList (files.map fun f => (f.1, ⟨f.1, f.2⟩)) }

/-- The content of the entry document, or `fallback` if that is absent or
    empty. -/
def entryMarkup (p : Project) (fallback : String) : String :=
  match p.get? p.entryDocument with
  | some file => if file.content.isEmpty then fallback else file.content
  | none => fallback

/-- Gives every file the path of its key, and the project an entry document. -/
def normalize (p : Project) : Project :=
  { p with
    files := p.files.mapValues fun k file => { file with path := k }
    entryDocument := if p.entryDocument.isEmpty then defaultEntryDocument else p.entryDocument }

@[simp] theorem paths_normalize (p : Project) : p.normalize.paths = p.paths :=
  Table.keys_mapValues _ _

theorem firstFile?_normalize (p : Project) : p.normalize.firstFile? = p.firstFile? := by
  simp [firstFile?]

/-- The first file is a key. -/
theorem mem_paths_of_firstFile? {p : Project} {k : String} (h : p.firstFile? = some k) :
    k ∈ p.paths :=
  List.mem_of_find?_eq_some h

end Project

end LivePreview
