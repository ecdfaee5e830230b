/-
  LivePreview.Proofs.RecordedNames

  What a bundle is made of, and where the names in it come from.

  The names that are recorded of a source are identifiers that stand in it, and so do the
  specifiers, which hold no quotes (`ModuleRecord.mem_exports`, `ModuleRecord.mem_imports`).
  An import of a bundle belongs to a script of the project and leads to one of its keys
  (`Bundle.mem_imports`).
-/

import LivePreview.Bundle
import LivePreview.Proofs.Recording
import LivePreview.Proofs.Rewriting

namespace LivePreview

open Pattern Script

/-! ## Patterns without groups -/

namespace Pattern

/-- The pattern keeps no text. -/
def isGroupless : Pattern → Bool
  | group _ => false
  | seq p q | either p q => p.isGroupless && q.isGroupless
  | _ => true

theorem groups_eq_nil {p : Pattern} (hp : p.isGroupless = true) {last : Option Char}
    {t r : List Char} {gs : List (List Char)} (h : p.Takes last t r gs) : gs = [] := by
  induction p generalizing last t r gs with
  | group => cases hp
  | seq p q ihp ihq =>
    obtain ⟨hp, hq⟩ := Bool.and_eq_true_iff.mp hp
    obtain ⟨_, _, _, _, -, rfl, hleft, hright⟩ := h
    rw [ihp hp hleft, ihq hq hright, List.nil_append]
  | either p q ihp ihq =>
    obtain ⟨hp, hq⟩ := Bool.and_eq_true_iff.mp hp
    exact h.elim (ihp hp) (ihq hq)
  | nothing | one | many | few => exact h.2
  | wordBoundary | lineStart => exact h.2.1

end Pattern

/-! ## What is recorded of a source -/

namespace Script

variable {last : Option Char} {t r : List Char} {gs : List (List Char)}

theorem exists_name_of_takes_defaultExport (h : Shape.defaultExport.Takes last t r gs) :
    ∃ n : Name, gs = [n.chars] ∧ n.chars <:+ t := by
  rw [defaultExport_eq] at h
  obtain ⟨t', _, n, rfl, rfl, ⟨_, _, _, _, rfl, rfl, hwords, hfunction⟩⟩ :=
    takes_seq_identifier.mp h
  obtain ⟨g₁, g₂, rfl, rfl⟩ := takes_defaultExpression.mp hwords
  refine ⟨n, ?_, List.suffix_append _ _⟩
  rcases hfunction with hfunction | ⟨-, rfl⟩
  · obtain ⟨_, g, rfl, hword⟩ := takes_seq_blanks1.mp hfunction
    obtain ⟨rfl, rfl⟩ := takes_literal.mp hword
    rfl
  · rfl

theorem exists_name_of_takes_namedExport (h : Shape.namedExport.Takes last t r gs) :
    ∃ n : Name, gs = [n.chars] ∧ n.chars <:+ t := by
  rw [namedExport_eq] at h
  obtain ⟨_, _, n, rfl, rfl, hwords⟩ := takes_seq_identifier.mp h
  obtain ⟨_, g₂, rfl, ⟨_, _, _, _, rfl, rfl, hgap, hword⟩⟩ := takes_seq_blanks1.mp hwords
  obtain ⟨_, g₁, rfl, hexport⟩ := takes_seq_blanks1.mp hgap
  obtain ⟨rfl, rfl⟩ := takes_literal.mp hexport
  obtain ⟨-, rfl⟩ := takes_oneOf.mp hword
  exact ⟨n, rfl, List.suffix_append _ _⟩

theorem exists_names_of_takes_defaultImport (h : Shape.defaultImport.Takes last t r gs) :
    ∃ n : Name, ∃ m, gs = [n.chars, m] ∧ n.chars <:+: t ∧ m <:+: t ∧
      ∀ c ∈ m, Shape.isQuote c = false := by
  obtain ⟨g₁, n, g₂, g₃, q, m, q', rfl, rfl, -, hquote⟩ := exists_of_takes_defaultImport h
  refine ⟨n, m, rfl, ?_, ?_, hquote⟩
  · refine ⟨"import".toList ++ g₁.chars,
      g₂.chars ++ "from".toList ++ g₃.chars ++ q :: (m ++ [q']), ?_⟩
    simp only [List.append_assoc]
  · refine ⟨"import".toList ++ (g₁.chars ++ (n.chars ++ (g₂.chars ++ ("from".toList ++
      g₃.chars)))) ++ [q], [q'], ?_⟩
    simp only [List.append_assoc, List.cons_append, List.nil_append]

theorem exists_name_of_takes_componentFunction (h : Shape.componentFunction.Takes last t r gs) :
    ∃ n, gs = [n] ∧ n.all isIdentifierPart = true := by
  obtain ⟨_, n, _, _, -, rfl, hwords, ⟨_, rfl, _, _, _, _, rfl, rfl, ⟨⟨c, rfl, hc⟩, rfl⟩,
    hpart, rfl⟩⟩ := h
  rw [groups_eq_nil (by decide) hwords]
  refine ⟨_, rfl, ?_⟩
  have halpha : c.isAlpha = true := Bool.or_eq_true_iff.mpr (.inl hc)
  have hletter : isIdentifierPart c = true := by
    simp [isIdentifierPart, Char.isAlphanum, halpha]
  rw [List.singleton_append, List.all_cons, hletter, Bool.true_and, List.all_eq_true]
  exact hpart

/-- A match that is found keeps parts of the text. -/
theorem text_infix_of_mem_allMatches {p : Pattern} {s : List Char} {m : Match}
    (h : m ∈ p.allMatches s) : m.text <:+: s := by
  obtain ⟨-, a, r, rfl, -⟩ := exists_takes_of_mem_allMatches h
  exact List.infix_append' _ _ _

namespace ModuleRecord

/-- A name that stands in a source. -/
def NameIn (source : String) (name : String) : Prop :=
  isIdentifier name.toList = true ∧ name.toList <:+: source.toList

/-- An exported binding is a name of the source. -/
theorem mem_exports {path source : String} {b : ExportBinding}
    (h : b ∈ (ofSource path source).exports) : NameIn source b.localName := by
  have hname {p : Pattern} {m : Match} (hm : m ∈ p.allMatches source.toList)
      (htakes : ∀ last t r gs, p.Takes last t r gs → ∃ n : Name, gs = [n.chars] ∧ n.chars <:+ t) :
      NameIn source (String.ofList (m.group 0)) := by
    obtain ⟨-, a, r, -, ht⟩ := exists_takes_of_mem_allMatches hm
    obtain ⟨n, hgs, hn⟩ := htakes _ _ _ _ ht
    have hgroup : m.group 0 = n.chars := by rw [Match.group, hgs]; rfl
    rw [NameIn, String.toList_ofList, hgroup]
    exact ⟨n.valid, hn.isInfix.trans (text_infix_of_mem_allMatches hm)⟩
  rcases List.mem_append.mp h with hdefault | hnamed
  · rw [defaultExports] at hdefault
    split at hdefault
    · next m hfirst =>
      dsimp only at hdefault
      split at hdefault
      · cases hdefault
      · rw [List.mem_singleton.mp hdefault]
        exact hname (List.mem_of_head? hfirst) fun _ _ _ _ => exists_name_of_takes_defaultExport
    · cases hdefault
  · obtain ⟨m, hm, rfl⟩ := List.mem_map.mp hnamed
    exact hname hm fun _ _ _ _ => exists_name_of_takes_namedExport

/-- An import binds a name of the source, and its specifier stands there without quotes. -/
theorem mem_imports {path source : String} {b : ImportBinding}
    (h : b ∈ (ofSource path source).imports) :
    NameIn source b.localName ∧ b.specifier.toList <:+: source.toList ∧
      ∀ c ∈ b.specifier.toList, Shape.isQuote c = false := by
  obtain ⟨m, hm, rfl⟩ := List.mem_map.mp h
  obtain ⟨-, a, r, -, ht⟩ := exists_takes_of_mem_allMatches hm
  obtain ⟨n, spec, hgs, hn, hspec, hquote⟩ := exists_names_of_takes_defaultImport ht
  have htext := text_infix_of_mem_allMatches hm
  have hname : m.group 0 = n.chars := by rw [Match.group, hgs]; rfl
  have hspecifier : m.group 1 = spec := by rw [Match.group, hgs]; rfl
  simp only [NameIn, String.toList_ofList, hname, hspecifier]
  exact ⟨⟨n.valid, hn.trans htext⟩, hspec.trans htext, hquote⟩

end ModuleRecord

end Script

/-! ## What a bundle is made of -/

namespace Bundle

variable {options : Options} {project : Project} {b : Bundle}

/-- The imports of a file, looked up in the project. -/
def importsOf (project : Project) (f : File) : List ResolvedImport :=
  (recordOf f).imports.map fun binding =>
    ⟨f.path, binding, Resolution.find project f.path binding.specifier⟩

theorem resolveImports_eq (project : Project) (files : List File) :
    resolveImports project (files.map recordOf) = files.flatMap (importsOf project) := by
  rw [resolveImports, List.flatMap_map]
  rfl

theorem modules_eq (h : build options project = .ok b) :
    b.modules = project.scripts.map recordOf := by
  obtain ⟨-, -, rfl⟩ := build_eq_ok_iff.mp h
  rfl

theorem stripped_eq_map (h : build options project = .ok b) : b.stripped =
    project.scripts.map fun f => .ofSource f.path f.content options.sharedDefaultSlot := by
  obtain ⟨-, -, rfl⟩ := build_eq_ok_iff.mp h
  rfl

theorem imports_eq (h : build options project = .ok b) :
    b.imports = project.scripts.flatMap (importsOf project) := by
  obtain ⟨-, -, rfl⟩ := build_eq_ok_iff.mp h
  exact resolveImports_eq project project.scripts

theorem resolutionCode_eq (h : build options project = .ok b) : b.resolutionCode =
    String.join (b.imports.map (importCode b.modules options.placeholderLiteral)) := by
  obtain ⟨-, -, rfl⟩ := build_eq_ok_iff.mp h
  rfl

theorem hints_eq (h : build options project = .ok b) :
    b.hints = hintsOf b.imports b.stripped (bodyOf b.stripped) := by
  obtain ⟨-, -, rfl⟩ := build_eq_ok_iff.mp h
  rfl

/-- A name that stands in a script of the project. -/
def NameOf (project : Project) (name : String) : Prop :=
  ∃ f ∈ project.scripts, ModuleRecord.NameIn f.content name

/-- An import of a bundle belongs to a script, which holds its name and its specifier, and
    it leads to a key of the project if anywhere. -/
theorem mem_imports (h : build options project = .ok b) {i : ResolvedImport}
    (hi : i ∈ b.imports) : ∃ f ∈ project.scripts, i.importer = f.path ∧
      ModuleRecord.NameIn f.content i.binding.localName ∧
      (i.binding.specifier.toList <:+: f.content.toList ∧
        ∀ c ∈ i.binding.specifier.toList, Shape.isQuote c = false) ∧
      ∀ path shadowed, i.resolution = .resolved path shadowed → path ∈ project.paths := by
  rw [imports_eq h] at hi
  obtain ⟨f, hf, hi⟩ := List.mem_flatMap.mp hi
  obtain ⟨binding, hbinding, rfl⟩ := List.mem_map.mp hi
  obtain ⟨hname, hspecifier⟩ := ModuleRecord.mem_imports hbinding
  refine ⟨f, hf, rfl, hname, hspecifier, ?_⟩
  intro path shadowed hfind
  have hhits := Resolution.hits_find project f.path binding.specifier
  have hmem : path ∈ (Resolution.find project f.path binding.specifier).hits := by
    rw [show Resolution.find project f.path binding.specifier = .resolved path shadowed from hfind]
    exact List.mem_cons_self
  rw [hhits] at hmem
  exact Table.contains_iff_mem_keys.mp (List.mem_filter.mp hmem).2

/-- The default export of a module is a name of a script. -/
theorem nameOf_of_defaultExportOf? (h : build options project = .ok b) {path global : String}
    (hglobal : defaultExportOf? b.modules path = some global) : NameOf project global := by
  rw [modules_eq h] at hglobal
  obtain ⟨m, hm, hdefault⟩ := Option.bind_eq_some_iff.mp hglobal
  obtain ⟨f, hf, rfl⟩ := List.mem_map.mp (List.mem_reverse.mp (List.mem_of_find?_eq_some hm))
  obtain ⟨binding, hbinding, rfl⟩ := Option.map_eq_some_iff.mp hdefault
  exact ⟨f, hf, ModuleRecord.mem_exports (List.mem_of_find?_eq_some hbinding)⟩

/-- The hints of a bundle name functions. -/
theorem all_isIdentifierPart_of_mem_candidates (h : build options project = .ok b) {name : String}
    (hname : name ∈ b.hints.componentCandidates) :
    name.toList.all isIdentifierPart = true := by
  rw [hints_eq h] at hname
  obtain ⟨m, hm, rfl⟩ := List.mem_map.mp (List.mem_eraseDups.mp hname)
  obtain ⟨-, _, _, -, htakes⟩ := exists_takes_of_mem_allMatches hm
  obtain ⟨n, hgroups, hn⟩ := exists_name_of_takes_componentFunction htakes
  rw [String.toList_ofList, Match.group, hgroups]
  exact hn

/-- A script of a project is one of its files. -/
theorem exists_key_of_mem_scripts {f : File} (h : f ∈ project.scripts) :
    ∃ key, (key, f) ∈ project.files.entries := by
  obtain ⟨e, he, rfl⟩ := List.mem_map.mp (List.mem_filter.mp h).1
  exact ⟨e.1, he⟩

end Bundle

end LivePreview
