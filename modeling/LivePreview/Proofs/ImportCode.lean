/-
  LivePreview.Proofs.ImportCode

  The code for the imports of a bundle, part by part: for each import a comment, a line
  feed, and a binding unless the name is already declared (`Bundle.importCode_eq`).
  Comments and bindings are fixed texts with names, paths and specifiers between them.
-/

import LivePreview.Proofs.RecordedNames
import LivePreview.Proofs.Words

namespace LivePreview.Bundle

open Script Text

variable {project : Project} {b : Bundle} {modules : List ModuleRecord}

/-- The binding of a placeholder, without the end of its line. -/
def placeholderLine (name placeholder : String) : String :=
  interleave ["var ", " = typeof ", " !== \"undefined\" ? ", " : ", ";"]
    [name, name, name, placeholder, ""]

/-- The message that a failing import logs. -/
def failureMessage (name path : String) : String :=
  interleave ["Import ", " from ", " failed:"] [name, path, ""]

/-- The binding of another global, without the end of its line. -/
def globalLine (name global path placeholder : String) : String :=
  interleave ["var ", " = (function () \x7b try \x7b return ",
      "; \x7d catch (e) \x7b console.warn(", ", e); return ", "; \x7d \x7d)();"]
    [name, global, Json.quote (failureMessage name path), placeholder, ""]

/-- The comment above a binding, without the end of its line. -/
def commentOf (modules : List ModuleRecord) (i : ResolvedImport) : String :=
  let name := i.binding.localName
  match i.resolution with
  | .unresolved =>
    interleave ["// Import not found: ", " from "] [name, i.binding.specifier]
  | .resolved path _ =>
    match defaultExportOf? modules path with
    | none =>
      interleave ["// Import resolution for ", ": "] [i.importer, path] ++ " has no default export"
    | some global =>
      if global = name then
        interleave ["// Import resolution for ", ": ", " is declared by "] [i.importer, name, path]
      else interleave ["// Import resolution for ", ": ", " from "] [i.importer, name, path]

/-- What is bound: nothing if the name is declared by the module it comes from. -/
def bindingOf (modules : List ModuleRecord) (placeholder : String) (i : ResolvedImport) : String :=
  let name := i.binding.localName
  match i.resolution with
  | .unresolved => placeholderLine name placeholder ++ "\n"
  | .resolved path _ =>
    match defaultExportOf? modules path with
    | none => placeholderLine name placeholder ++ "\n"
    | some global =>
      if global = name then "" else globalLine name global path placeholder ++ "\n"

theorem placeholderBinding_eq (name placeholder : String) :
    placeholderBinding name placeholder = placeholderLine name placeholder ++ "\n" := by
  unfold placeholderBinding placeholderLine
  simp only [interleave, String.append_assoc, String.append_empty]
  rfl

theorem globalBinding_eq (name global path placeholder : String) :
    globalBinding name global path placeholder =
      globalLine name global path placeholder ++ "\n" := by
  unfold globalBinding globalLine failureMessage
  simp only [interleave, String.append_assoc, String.append_empty]
  rfl

/-- The code of an import is its comment and its binding. -/
theorem importCode_eq (modules : List ModuleRecord) (placeholder : String) (i : ResolvedImport) :
    importCode modules placeholder i =
      commentOf modules i ++ ("\n" ++ bindingOf modules placeholder i) := by
  unfold importCode commentOf bindingOf
  cases i.resolution with
  | unresolved =>
    dsimp only
    simp only [placeholderBinding_eq, interleave, String.append_assoc, String.append_empty]
  | resolved path shadowed =>
    dsimp only
    cases defaultExportOf? modules path with
    | none =>
      dsimp only
      simp only [placeholderBinding_eq, interleave, String.append_assoc, String.append_empty]
      rfl
    | some global =>
      dsimp only
      split
      · simp only [interleave, String.append_assoc, String.append_empty]
      · simp only [globalBinding_eq, interleave, String.append_assoc, String.append_empty]

/-- A binding is nothing or ends its line. -/
theorem bindingOf_eq (modules : List ModuleRecord) (placeholder : String) (i : ResolvedImport) :
    bindingOf modules placeholder i = "" ∨
      ∃ line, bindingOf modules placeholder i = line ++ "\n" := by
  unfold bindingOf
  dsimp only
  split
  · exact .inr ⟨_, rfl⟩
  split
  · exact .inr ⟨_, rfl⟩
  split
  · exact .inl rfl
  · exact .inr ⟨_, rfl⟩

theorem importCode_endsLine (modules : List ModuleRecord) (placeholder : String)
    (i : ResolvedImport) : ∃ t, (importCode modules placeholder i).toList = t ++ ['\n'] := by
  rw [importCode_eq]
  rcases bindingOf_eq modules placeholder i with h | ⟨line, h⟩
  · rw [h, String.append_empty, String.toList_append]
    exact ⟨_, rfl⟩
  · rw [h, ← String.append_assoc, ← String.append_assoc, String.toList_append]
    exact ⟨_, rfl⟩

theorem comment_isPrefix_commentOf (modules : List ModuleRecord) (i : ResolvedImport) :
    "// Import ".toList <+: (commentOf modules i).toList := by
  have hlead {s : String} (hs : "// Import ".toList <+: s.toList) (t : List Char) :
      "// Import ".toList <+: s.toList ++ t :=
    hs.trans (List.prefix_append _ _)
  unfold commentOf
  dsimp only
  split
  · rw [interleave, String.toList_append]
    exact hlead (by decide) _
  split
  · rw [interleave, String.append_assoc, String.toList_append]
    exact hlead (by decide) _
  split
  · rw [interleave, String.toList_append]
    exact hlead (by decide) _
  · rw [interleave, String.toList_append]
    exact hlead (by decide) _

theorem toList_resolutionCode {options : Options} (hbuild : build options project = .ok b) :
    b.resolutionCode.toList = (b.imports.map fun i =>
      (importCode b.modules options.placeholderLiteral i).toList).flatten := by
  rw [resolutionCode_eq hbuild, String.toList_join, List.flatMap_map, List.flatMap_def]

end LivePreview.Bundle
