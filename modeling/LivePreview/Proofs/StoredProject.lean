/-
  LivePreview.Proofs.StoredProject

  A stored project is loaded as it was saved, but for what loading repairs.

  Loading reads the written form back without loss (`Project.ofRawJson?_compact`,
  `Project.ofRawJson?_pretty`) and repairs what was read.  The repair gives every file
  the path of its key, fills in an empty entry document and an empty selection, and
  keeps everything else; a project is as a repair leaves it (`Project.IsRepaired`)
  exactly if repairing does not change it.
-/

import LivePreview.Library.Memory
import LivePreview.Proofs.JsonText

namespace LivePreview

open Json

/-! ## Reading back what was written -/

/-- The JSON form of a file, as it stands in that of a project. -/
def File.toJson (f : File) : Value :=
  .object [("path", .string f.path), ("content", .string f.content)]

/-- The file is found at the object of its path and its content. -/
theorem File.reads_record {f : File} {text : List Char}
    (h : ObjectText [("path", Quoted.encode f.path.toList),
      ("content", Quoted.encode f.content.toList)] text) :
    Reads File.record.read text f := by
  have hpath : record.Sets ("path", _) _ := .string _ true (fun v g => { g with path := v })
    rfl (stringText_encode f.path)
  have hcontent : record.Sets ("content", _) _ := .string _ true
    (fun v g => { g with content := v }) rfl (stringText_encode f.content)
  have hnodup : ["path", "content"].Nodup := by decide
  have hmissing : record.missing? ["content", "path"] = none := by decide
  exact Json.reads_record h.spelled _ (.cons hpath (.cons hcontent .nil)) hnodup hmissing

namespace Project

variable {p : Project}

/-- A project is found at an object with its files at an object of their texts, its
    selected path and its entry document. -/
theorem reads_record {fileText : File → List Char}
    (hfile : ∀ f : File, ObjectText [("path", Quoted.encode f.path.toList),
      ("content", Quoted.encode f.content.toList)] (fileText f))
    {filesText text : List Char}
    (hfiles : ObjectText (p.files.entries.map fun e => (e.1, fileText e.2)) filesText)
    (h : ObjectText [("files", filesText), ("activePath", Quoted.encode p.activePath.toList),
      ("entryDocumentPath", Quoted.encode p.entryDocument.toList)] text) :
    Reads record.read text p := by
  have hvalues : List.Forall₂ (fun m e => m.1 = e.1 ∧ Reads File.record.read m.2 e.2)
      (p.files.entries.map fun e => (e.1, fileText e.2)) p.files.entries := by
    rw [List.forall₂_map_left_iff, List.forall₂_same]
    exact fun e _ => ⟨rfl, File.reads_record (hfile e.2)⟩
  have hfiles := Reads.map (reads_map hfiles.spelled hvalues) fun v (q : Project) =>
    { q with files := v }
  rw [Table.ofList_entries] at hfiles
  have hactive : record.Sets ("activePath", _) _ := .string _ false
    (fun v q => { q with activePath := v }) rfl (stringText_encode p.activePath)
  have hentry : record.Sets ("entryDocumentPath", _) _ := .string _ false
    (fun v q => { q with entryDocument := v }) rfl (stringText_encode p.entryDocument)
  have hnodup : ["files", "activePath", "entryDocumentPath"].Nodup := by decide
  have hmissing : record.missing? ["entryDocumentPath", "activePath", "files"] = none := by decide
  exact Json.reads_record h.spelled _
    (.cons ⟨filesField, rfl, hfiles⟩ (.cons hactive (.cons hentry .nil))) hnodup hmissing

/-- A project is read back from its form on one line. -/
theorem ofRawJson?_compact (p : Project) : ofRawJson? p.toJson.compact = .ok p := by
  have hfile (f : File) : ObjectText _ f.toJson.compactChars := Value.objectText_compactChars _
  have hfiles := Value.objectText_compactChars (p.files.entries.map fun e => (e.1, e.2.toJson))
  have htext : ObjectText _ p.toJson.compactChars := Value.objectText_compactChars _
  rw [List.map_map] at hfiles
  exact (reads_record hfile hfiles htext).parse

/-- A project is read back from its form on several lines. -/
theorem ofRawJson?_pretty (p : Project) : ofRawJson? p.toJson.pretty = .ok p := by
  have hfile (f : File) : ObjectText _ (f.toJson.prettyChars 2) := Value.objectText_prettyChars 2 _
  have hfiles := Value.objectText_prettyChars 1 (p.files.entries.map fun e => (e.1, e.2.toJson))
  have htext : ObjectText _ (p.toJson.prettyChars 0) := Value.objectText_prettyChars 0 _
  rw [List.map_map] at hfiles
  exact (reads_record hfile hfiles htext).parse

/-! ## What a repair does -/

/-- The project is as a repair leaves it. -/
structure IsRepaired (p : Project) : Prop where
  path : ∀ e ∈ p.files.entries, e.2.path = e.1
  entryDocument : p.entryDocument ≠ ""
  activePath : p.activePath = "" → p.firstFile?.getD "" = ""

theorem files_repair (p : Project) : p.repair.files = p.normalize.files := by
  rw [repair]
  split <;> rfl

theorem entries_repair (p : Project) :
    p.repair.files.entries = p.files.entries.map fun e => (e.1, ⟨e.1, e.2.content⟩) := by
  rw [files_repair]
  rfl

theorem paths_repair (p : Project) : p.repair.paths = p.paths := by
  rw [paths, files_repair]
  exact paths_normalize p

theorem entryDocument_repair (p : Project) :
    p.repair.entryDocument = if p.entryDocument = "" then "index.html" else p.entryDocument := by
  have h : p.repair.entryDocument = p.normalize.entryDocument := by
    rw [repair]
    split <;> rfl
  rw [h, normalize]
  simp [defaultEntryDocument]

theorem activePath_repair (p : Project) :
    p.repair.activePath = if p.activePath = "" then p.firstFile?.getD "" else p.activePath := by
  have hactive : p.normalize.activePath = p.activePath := rfl
  rw [repair, hactive]
  by_cases h : p.activePath = "" <;> simp [h, selectFirst, firstFile?_normalize, hactive]

theorem isRepaired_repair (p : Project) : p.repair.IsRepaired where
  path := by
    rw [entries_repair]
    intro e he
    obtain ⟨_, -, rfl⟩ := List.mem_map.mp he
    rfl
  entryDocument := by
    rw [entryDocument_repair]
    split
    · decide
    · assumption
  activePath := by
    rw [activePath_repair, firstFile?, firstFile?, paths_repair]
    split
    · exact id
    · exact fun h => absurd h ‹_›

/-- A project that needs no repair is kept. -/
theorem IsRepaired.repair_eq (h : p.IsRepaired) : p.repair = p := by
  have hentries : p.repair.files.entries = p.files.entries := by
    rw [entries_repair]
    conv_rhs => rw [← List.map_id p.files.entries]
    refine List.map_congr_left fun ⟨key, path, content⟩ he => ?_
    have hpath : path = key := h.path _ he
    rw [hpath]
    rfl
  have hfiles : p.repair.files = p.files := Table.ext hentries
  have hactive : p.repair.activePath = p.activePath := by
    rw [activePath_repair]
    split
    · next hempty => rw [hempty, h.activePath hempty]
    · rfl
  have hdocument : p.repair.entryDocument = p.entryDocument := by
    rw [entryDocument_repair, if_neg h.entryDocument]
  change (⟨p.repair.files, p.repair.activePath, p.repair.entryDocument⟩ : Project) = p
  rw [hfiles, hactive, hdocument]

theorem repair_eq_iff : p.repair = p ↔ p.IsRepaired :=
  ⟨fun h => h ▸ isRepaired_repair p, IsRepaired.repair_eq⟩

end Project

/-! ## Saving and loading -/

namespace MemoryLibrary

/-- What was saved is loaded repaired. -/
theorem load_save_eq (l : MemoryLibrary) (id : String) (p : Project) :
    (l.save id p).load id = .ok p.repair := by
  rw [load_save_self, Project.ofStored?, Project.ofJson?, Project.ofRawJson?_compact]
  rfl

/-- Loading a saved project succeeds.  The keys stay as they are, in their order, with the
    same contents, and every file has the path of its key.  An empty entry document is filled
    in with the usual one, and an empty selection with the first key that marks no folder.
    What was loaded can be saved and loaded again, under any id and in any library, without a
    change; and it is what was saved exactly if that needs no repair. -/
theorem load_save_repaired (l : MemoryLibrary) (id : String) (p : Project) :
    ∃ r, (l.save id p).load id = .ok r ∧
      r.files.entries = p.files.entries.map (fun e => (e.1, ⟨e.1, e.2.content⟩)) ∧
      r.entryDocument = (if p.entryDocument = "" then "index.html" else p.entryDocument) ∧
      r.activePath = (if p.activePath = "" then
        (p.paths.find? fun k => !Path.isMarker k).getD "" else p.activePath) ∧
      (∀ (l' : MemoryLibrary) (id' : String), (l'.save id' r).load id' = .ok r) ∧
      (r = p ↔ p.IsRepaired) := by
  have hagain : p.repair.repair = p.repair := p.isRepaired_repair.repair_eq
  refine ⟨p.repair, load_save_eq l id p, p.entries_repair, p.entryDocument_repair,
    p.activePath_repair, fun l' id' => ?_, Project.repair_eq_iff⟩
  rw [load_save_eq, hagain]

/-- A folder before the first file, a key with quotes, line ends and letters beyond ASCII,
    inner paths that differ from their keys, and nothing selected. -/
def scatteredProject : Project :=
  ⟨⟨[("src/.folder", ⟨"", ""⟩), ("a \"\\\n\x00 ü.js", ⟨"elsewhere.js", "\x1f\t\"ok\"\\ 😀"⟩),
    ("index.html", ⟨"index.html", "<p>"⟩)], by decide⟩, "", ""⟩

theorem load_save_repaired_scatteredProject :
    (empty.save "p" scatteredProject).load "p" =
      .ok ⟨⟨[("src/.folder", ⟨"src/.folder", ""⟩),
        ("a \"\\\n\x00 ü.js", ⟨"a \"\\\n\x00 ü.js", "\x1f\t\"ok\"\\ 😀"⟩),
        ("index.html", ⟨"index.html", "<p>"⟩)], by decide⟩, "a \"\\\n\x00 ü.js", "index.html"⟩ := by
  obtain ⟨r, hload, hentries, hdocument, hactive, -, -⟩ :=
    load_save_repaired empty "p" scatteredProject
  have hfirst : scatteredProject.paths.find? (fun k => !Path.isMarker k) =
      some "a \"\\\n\x00 ü.js" := by decide
  have hfiles : r.files = scatteredProject.repair.files := Table.ext hentries
  refine hload.trans ?_
  change Except.ok (⟨r.files, r.activePath, r.entryDocument⟩ : Project) = _
  rw [hfiles, hdocument, hactive, hfirst]
  rfl

end MemoryLibrary

end LivePreview
