/-
  LivePreview.Project.Json

  The JSON form of a project: an object of its files by key, the selected path and
  the entry document.  Only the files are required.
-/

import LivePreview.Json.Reader
import LivePreview.Json.Value
import LivePreview.Project.Basic

namespace LivePreview

open Json

/-- A file as a record. -/
def File.record : Json.Record File where
  name := "FileEntry"
  fields :=
    [.text "path" true fun v f => { f with path := v },
      .text "content" true fun v f => { f with content := v }]
  start := ⟨"", ""⟩

namespace Project

/-- The files by their keys. -/
def filesField : Json.Field Project where
  name := "files"
  required := true
  read := fun s =>
    (readMap File.record.read s).map fun (value, rest) => (fun p => { p with files := value }, rest)

/-- A project as a record. -/
def record : Json.Record Project where
  name := "ProjectSnapshot"
  fields :=
    [filesField, .text "activePath" false fun v p => { p with activePath := v },
      .text "entryDocumentPath" false fun v p => { p with entryDocument := v }]
  start := empty

/-- Reads a project from JSON, just as it is written there. -/
def ofRawJson? (text : String) : Except Fault Project := parse record.read text

/-- The project with every file under its own path, with an entry document, and
    with a file selected if there is one. -/
def repair (p : Project) : Project :=
  let q := p.normalize
  if q.activePath.isEmpty then q.selectFirst else q

/-- Reads a stored project from JSON and repairs it. -/
def ofJson? (text : String) : Except Fault Project := (ofRawJson? text).map repair

/-- The JSON form of a project. -/
def toJson (p : Project) : Value :=
  .object
    [("files", .object (p.files.entries.map fun (key, file) =>
        (key, .object [("path", .string file.path), ("content", .string file.content)]))),
      ("activePath", .string p.activePath), ("entryDocumentPath", .string p.entryDocument)]

end Project

end LivePreview
