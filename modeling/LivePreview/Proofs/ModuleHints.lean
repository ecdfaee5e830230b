/-
  LivePreview.Proofs.ModuleHints

  The hints of a bundle, put together from those of its modules.

  What the hints look for is found in the body exactly where it is found in the code of a
  module taken alone (`Bundle.allMatches_bodyOf`).  A name counts where it first occurs, and
  that is the same place whether each module drops its repeated names before the whole does
  or not (`eraseDups_flatMap`).
-/

import LivePreview.Proofs.ModuleBoundary
import LivePreview.Proofs.StatementPlace

namespace LivePreview

/-! ## First occurrences -/

section FirstOccurrences

variable {α β : Type} [BEq β] [LawfulBEq β]

theorem eraseDups_filter (keep : β → Bool) :
    (bs : List β) → (bs.filter keep).eraseDups = bs.eraseDups.filter keep
  | [] => rfl
  | b :: bs => by
    have ih := eraseDups_filter keep (bs.filter fun c => !c == b)
    rw [List.eraseDups_cons]
    cases hb : keep b with
    | true =>
      -- Whether a name is kept or repeated is asked in either order.
      rw [List.filter_cons_of_pos hb, List.filter_cons_of_pos hb, List.eraseDups_cons, ← ih,
        List.filter_filter, List.filter_filter]
      simp only [Bool.and_comm]
    | false =>
      -- What is kept does not repeat what is dropped.
      have hother : (bs.filter fun c => !c == b).filter keep = bs.filter keep := by
        rw [List.filter_filter]
        refine List.filter_congr fun c _ => ?_
        cases hc : keep c with
        | false => rfl
        | true =>
          have hne : c ≠ b := by
            rintro rfl
            exact Bool.false_ne_true (hb.symm.trans hc)
          simp [hne]
      rw [List.filter_cons_of_neg (by simp [hb]), List.filter_cons_of_neg (by simp [hb]), ← ih,
        hother]
termination_by bs => bs.length
decreasing_by exact Nat.lt_succ_of_le (List.length_filter_le _ _)

theorem eraseDups_eraseDups : (bs : List β) → bs.eraseDups.eraseDups = bs.eraseDups
  | [] => rfl
  | b :: bs => by
    have ih := eraseDups_eraseDups (bs.filter fun c => !c == b)
    have hfilter : (bs.filter fun c => !c == b).eraseDups.filter (fun c => !c == b) =
        (bs.filter fun c => !c == b).eraseDups := by
      rw [← eraseDups_filter, List.filter_filter]
      simp only [Bool.and_self]
    rw [List.eraseDups_cons, List.eraseDups_cons, hfilter, ih]
termination_by bs => bs.length
decreasing_by exact Nat.lt_succ_of_le (List.length_filter_le _ _)

/-- Of joined lists each gives its first occurrences, whether it is rid of others before or
    not. -/
theorem eraseDups_flatMap (f : α → List β) (as : List α) :
    (as.flatMap fun a => (f a).eraseDups).eraseDups = (as.flatMap f).eraseDups := by
  induction as with
  | nil => rfl
  | cons a as ih =>
    have helem : ∀ b, (f a).eraseDups.elem b = (f a).elem b := by
      intro b
      rw [Bool.eq_iff_iff, List.elem_iff, List.elem_iff, List.mem_eraseDups]
    rw [List.flatMap_cons, List.flatMap_cons, List.eraseDups_append, List.eraseDups_append,
      eraseDups_eraseDups, List.removeAll, List.removeAll, eraseDups_filter, eraseDups_filter, ih]
    simp only [helem]

end FirstOccurrences

/-! ## The hints of a bundle -/

namespace Bundle

open Pattern Script

variable {options : Options} {project : Project} {b : Bundle}

theorem body_eq (h : build options project = .ok b) : b.body = bodyOf b.stripped := by
  obtain ⟨-, -, rfl⟩ := build_eq_ok_iff.mp h
  rfl

/-- The candidates of a body are the first occurrences among those of its modules. -/
theorem componentNames_bodyOf {stripped : List StrippedModule}
    (h : ∀ m ∈ stripped, '\n' ∉ m.path.toList) :
    componentNames (bodyOf stripped).toList =
      (stripped.flatMap fun m => componentNames m.code.toList).eraseDups := by
  unfold componentNames
  rw [allMatches_bodyOf isDeclaration_componentFunction h, List.map_flatMap, eraseDups_flatMap]

/-- If no module's path holds a line feed, both kinds of declarations that the hints look for
    are found in the body module by module, as in the code of the module alone.  So the
    candidates are those of the modules in their order, each where it first occurs, and a
    global `App` is hinted at exactly if an import has this name or a module declares it. -/
theorem hints_by_module (hbuild : build options project = .ok b)
    (h : ∀ m ∈ b.stripped, '\n' ∉ m.path.toList) :
    b.hints.componentCandidates =
        (b.stripped.flatMap fun m => componentNames m.code.toList).eraseDups ∧
      (b.hints.definesApp = true ↔ (∃ i ∈ b.imports, i.binding.localName = "App") ∨
        ∃ m ∈ b.stripped, Shape.appDeclaration.occursIn m.code.toList = true) ∧
      Shape.componentFunction.allMatches b.body.toList =
        (b.stripped.flatMap fun m => Shape.componentFunction.allMatches m.code.toList) ∧
      Shape.appDeclaration.allMatches b.body.toList =
        b.stripped.flatMap fun m => Shape.appDeclaration.allMatches m.code.toList := by
  rw [hints_eq hbuild, body_eq hbuild]
  refine ⟨componentNames_bodyOf h, ?_, allMatches_bodyOf isDeclaration_componentFunction h,
    allMatches_bodyOf isDeclaration_appDeclaration h⟩
  rw [hintsOf, occursIn_bodyOf isDeclaration_appDeclaration h, Bool.or_eq_true, List.any_eq_true,
    List.any_eq_true, or_comm]
  simp only [beq_iff_eq]

/-- Scripts that break off in the middle of a declaration. -/
def brokenOff : Project :=
  .ofFiles [("A.js", "function A() \x7b\x7d\nasync function"),
    ("B.js", "B() \x7b\x7d\nfunction\nA() \x7b\x7d\nclass"),
    ("App.js", "App \x7b\x7d\nfunction C() \x7b\x7d\n")]

/-- Neither `B` nor `App` is declared across the end of a module. -/
theorem hints_by_module_brokenOff : ∃ b, build {} brokenOff = .ok b ∧
    (∀ m ∈ b.stripped, '\n' ∉ m.path.toList) ∧
    b.hints.componentCandidates = ["A", "C"] ∧ b.hints.definesApp = false := by
  have hscripts : brokenOff.scripts ≠ [] := by decide
  have hplain : ∀ f ∈ brokenOff.scripts, Keywordless f.content.toList := by decide
  have hcodes : brokenOff.scripts.map strippedOf =
      brokenOff.scripts.map fun f => ⟨f.path, f.content, false⟩ :=
    List.map_congr_left fun f hf => StrippedModule.ofSource_of_keywordless _ _ (hplain f hf)
  have hpaths : ∀ f ∈ brokenOff.scripts, '\n' ∉ f.path.toList := by decide
  have hnames : (brokenOff.scripts.flatMap fun f => componentNames f.content.toList) =
      ["A", "A", "C"] := by
    decide
  have hnone : ∀ f ∈ brokenOff.scripts,
      Shape.appDeclaration.occursIn f.content.toList = false := by
    decide
  have himports : brokenOff.scripts.flatMap (importsOf brokenOff) = [] := by decide
  obtain ⟨b, hbuild⟩ : ∃ b, build {} brokenOff = .ok b :=
    ⟨_, build_eq_ok_iff.mpr ⟨Options.validate_default, hscripts, rfl⟩⟩
  have hmodules := (stripped_eq hbuild).trans hcodes
  have hfree : ∀ m ∈ b.stripped, '\n' ∉ m.path.toList := by
    rw [hmodules]
    exact List.forall_mem_map.mpr hpaths
  obtain ⟨hcandidates, happ, -, -⟩ := hints_by_module hbuild hfree
  rw [hmodules, List.flatMap_map, hnames] at hcandidates
  refine ⟨b, hbuild, hfree, hcandidates, ?_⟩
  rw [Bool.eq_false_iff, ne_eq, happ, imports_eq hbuild, himports, hmodules]
  rintro (⟨i, hi, -⟩ | ⟨m, hm, hoccurs⟩)
  · cases hi
  · obtain ⟨f, hf, rfl⟩ := List.mem_map.mp hm
    exact Bool.false_ne_true ((hnone f hf).symm.trans hoccurs)

end Bundle

end LivePreview
