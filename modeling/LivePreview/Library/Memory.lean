/-
  LivePreview.Library.Memory

  Projects kept in memory, by id, in their JSON form.
-/

import LivePreview.Library.Error
import LivePreview.Project.Json
import LivePreview.Project.Starter

namespace LivePreview

/-- The project that was loaded, or the starter project in its place. -/
def Project.orStarter : Except LibraryError Project → Project
  | .ok project => project
  | .error _ => starter

/-- The project of a stored text. -/
def Project.ofStored? (id text : String) : Except LibraryError Project :=
  (Project.ofJson? text).mapError (LibraryError.malformed id)

/-- Stored texts by id. -/
structure MemoryLibrary where
  texts : Table String
deriving DecidableEq

namespace MemoryLibrary

/-- Nothing stored. -/
def empty : MemoryLibrary := ⟨.empty⟩

/-- The number of stored projects. -/
def size (l : MemoryLibrary) : Nat := l.texts.size

/-- Stores a text as it is. -/
def insertRaw (l : MemoryLibrary) (id text : String) : MemoryLibrary := ⟨l.texts.put id text⟩

/-- Stores a project. -/
def save (l : MemoryLibrary) (id : String) (project : Project) : MemoryLibrary :=
  l.insertRaw id project.toJson.compact

/-- Loads a project. -/
def load (l : MemoryLibrary) (id : String) : Except LibraryError Project :=
  match l.texts.get? id with
  | none => .error (.notFound id)
  | some text => Project.ofStored? id text

/-- Loads a project; the starter project if that fails. -/
def loadOrStarter (l : MemoryLibrary) (id : String) : Project := .orStarter (l.load id)

/-- What is loaded right after saving is read back from the JSON form. -/
theorem load_save_self (l : MemoryLibrary) (id : String) (project : Project) :
    (l.save id project).load id = Project.ofStored? id project.toJson.compact := by
  simp [load, save, insertRaw, Table.get?_put_self]

theorem load_save_of_ne {id other : String} (h : other ≠ id) (l : MemoryLibrary)
    (project : Project) : (l.save id project).load other = l.load other := by
  simp [load, save, insertRaw, Table.get?_put_of_ne h]

end MemoryLibrary

end LivePreview
