/-
  LivePreview.Proofs.SlotWrites

  Which stripped modules assign the shared slot, read from their text.

  The sources are any texts in which the slot's name does not occur.  No pass brings the
  name in but the one that assigns the slot (`lacks_withoutLists`,
  `lacks_withPlainFunctions`, `lacks_withPlainDeclarations`), that pass leaves no default
  export behind (`lacks_withSlotAssignments`), and the last pass neither touches an
  assignment nor puts a default export together.
-/

import LivePreview.Options
import LivePreview.Proofs.Rewriting
import LivePreview.Proofs.Stripping

namespace LivePreview.Script

open Pattern Text

variable {s : List Char}

/-! ## The words that are looked for -/

/-- The name of the shared slot when no other is set. -/
def slotName : List Char := ({} : Options).sharedDefaultSlot.toList

theorem underscores_isPrefix_slotName : "__".toList <+: slotName := by decide

/-- The beginning of an assignment to the slot. -/
def slotWrite : List Char := slotName ++ " = ".toList

/-- `export default` with white space behind both words. -/
def defaultWords (g₁ g₂ : Gap) : List Char :=
  "export".toList ++ g₁.chars ++ "default".toList ++ g₂.chars

theorem export_isPrefix_defaultWords (g₁ g₂ : Gap) : "export".toList <+: defaultWords g₁ g₂ := by
  unfold defaultWords
  rw [List.append_assoc, List.append_assoc]
  exact List.prefix_append _ _

/-- The words that an exported declaration can begin with. -/
def declarationHeads : List String := ["function", "async", "const", "let", "var", "class"]

theorem misses_slotName : Misses slotName ("function " :: declarationHeads) :=
  misses_of_clash (by decide)

theorem misses_defaultWords (g₁ g₂ : Gap) : Misses (defaultWords g₁ g₂)
    (String.ofList slotWrite :: declarationHeads) := by
  have hexport : Misses "export".toList (String.ofList slotWrite :: declarationHeads) :=
    misses_of_clash (by decide)
  have hdefault : Misses "default".toList (String.ofList slotWrite :: declarationHeads) :=
    misses_of_clash (by decide)
  have hgap (g : Gap) : Misses g.chars (String.ofList slotWrite :: declarationHeads) :=
    misses_of_class g.blank (by decide)
  exact ((hexport.append (hgap g₁)).append hdefault).append (hgap g₂)

/-- The words of a declaration run neither into the slot's name nor into `export`. -/
theorem misses_keyword (k : Keyword) : Misses k.chars ["__", "ex"] := by
  cases k with
  | asyncFunction gap =>
    have hasync : Misses "async".toList ["__", "ex"] := misses_of_clash (by decide)
    have hfunction : Misses "function".toList ["__", "ex"] := misses_of_clash (by decide)
    exact (hasync.append (misses_of_class gap.blank (by decide))).append hfunction
  | _ => exact misses_of_clash (by decide)

theorem Keyword.exists_declarationHead (k : Keyword) :
    ∃ s ∈ declarationHeads, s.toList <+: k.chars := by
  cases k with
  | asyncFunction gap =>
    refine ⟨"async", by decide, ?_⟩
    show "async".toList <+: "async".toList ++ gap.chars ++ "function".toList
    rw [List.append_assoc]
    exact List.prefix_append _ _
  | function => exact ⟨"function", by decide, List.prefix_refl _⟩
  | constWord => exact ⟨"const", by decide, List.prefix_refl _⟩
  | letWord => exact ⟨"let", by decide, List.prefix_refl _⟩
  | varWord => exact ⟨"var", by decide, List.prefix_refl _⟩
  | classWord => exact ⟨"class", by decide, List.prefix_refl _⟩

/-! ## The passes -/

/-- Every match begins where no word character stands before. -/
def Detached (p : Pattern) : Prop :=
  ∀ c t r gs, p.Takes (some c) t r gs → isWord c = false

theorem IndentedBy.detached {p : Pattern} {w : List Char} (h : IndentedBy p w) : Detached p := by
  intro c t r gs htakes
  obtain ⟨b, -, -, rfl | hline, hbefore⟩ := h (some c) t r gs htakes
  · rwa [lastAfter_nil, Option.any_some] at hbefore
  · -- Indentation is taken behind a line feed only.
    rw [hline c rfl]
    decide

/-- Taking import statements and export lists out joins no word together. -/
theorem lacks_withoutLists {w : List Char} (hw : ∀ c ∈ w, isWord c = true) (h : Lacks w s) :
    Lacks w (StrippedModule.withoutLists s) := by
  have hout {p : Pattern} (hp : Detached p) {u : List Char} (hu : Lacks w u) :
      Lacks w (p.erase u) := by
    refine lacks_erase (fun c hc t r gs _ htakes => ?_) hu
    have hword := hw c hc
    rw [hp c t r gs htakes] at hword
    cases hword
  exact hout indentedBy_exportList.detached (hout indentedBy_importStatement.detached h)

/-- A default function whose name is kept brings the slot's name in only if it was there. -/
theorem lacks_withPlainFunctions (h : Lacks slotName s) :
    Lacks slotName (StrippedModule.withPlainFunctions s) := by
  intro hin
  have hwrites : Shape.defaultFunction.WritesFrom
      (fun m => "function ".toList ++ m.group 0) ["function "] :=
    fun _ _ _ _ _ => ⟨_, List.mem_singleton_self _, List.prefix_append _ _⟩
  have hmiss : Misses "function ".toList ["__"] := misses_of_clash (by decide)
  have hinside : ∀ last t r gs, t ++ r <:+ s → Shape.defaultFunction.Takes last t r gs →
      ∀ v, v <:+ "function ".toList ++ Match.group ⟨t, gs⟩ 0 → v ≠ [] →
        ¬ slotName <+: v ++ r := by
    intro last t r gs hsuffix htakes v hv hvne hfront
    obtain ⟨g₁, g₂, g₃, n, rfl, rfl⟩ := takes_defaultFunction.mp htakes
    rcases suffix_append_cases hv with ⟨y, hy⟩ | ⟨x, hx, hxne, rfl⟩
    · -- What stands in the name and behind it is the text's own.
      have hown : v ++ r <:+ s := by
        refine List.IsSuffix.trans ⟨?_, ?_⟩ hsuffix
        · exact "export".toList ++ g₁.chars ++ "default".toList ++ g₂.chars ++
            "function".toList ++ g₃.chars ++ y
        · have hname : n.chars = y ++ v := hy.symm
          simp only [hname, List.append_assoc]
      exact h (hfront.isInfix.trans hown.isInfix)
    · rw [List.append_assoc] at hfront
      exact not_isPrefix_of_misses underscores_isPrefix_slotName hmiss hx hxne hfront
  obtain ⟨a, b, rfl, hb, -⟩ := exists_idle_of_infix_replace (by decide) hwrites
    (misses_slotName.mono (by simp)) hinside hin
  exact h (hb.isInfix.trans (List.suffix_append a b).isInfix)

/-- No default export is left once the slot is assigned. -/
theorem lacks_withSlotAssignments (g₁ g₂ : Gap) (s : List Char) :
    Lacks (defaultWords g₁ g₂) (StrippedModule.withSlotAssignments slotName s) := by
  intro hin
  have hreplace : defaultWords g₁ g₂ <:+: Shape.defaultExpression.replace (fun _ => slotWrite) s :=
    hin
  have hwrites : Shape.defaultExpression.WritesFrom (fun _ => slotWrite)
      (String.ofList slotWrite :: declarationHeads) := by
    intro _ _ _ _ _
    refine ⟨_, List.mem_cons_self, ?_⟩
    rw [String.toList_ofList]
  have hmiss : Misses slotWrite ["export"] := misses_of_clash (by decide)
  have hexport := export_isPrefix_defaultWords g₁ g₂
  have hne : defaultWords g₁ g₂ ≠ [] := hexport.ne_nil (by decide)
  obtain ⟨a, b, -, ⟨r, rfl⟩, hidle⟩ := exists_idle_of_infix_replace hne hwrites
    (misses_defaultWords g₁ g₂)
    (fun _ _ _ _ _ _ _ => not_isPrefix_of_misses hexport hmiss) hreplace
  -- The words stand where nothing is matched, but there they can be taken.
  refine not_isIdle_of_takes ?_ (takes_defaultExpression.mpr ⟨g₁, g₂, rfl, rfl⟩) hidle
  intro last t r gs htakes
  obtain ⟨k₁, k₂, rfl, -⟩ := takes_defaultExpression.mp htakes
  simp

theorem writesFrom_exportedDeclaration :
    Shape.exportedDeclaration.WritesFrom (·.group 0) declarationHeads := by
  intro last t r gs htakes
  obtain ⟨g, k, -, hgs⟩ := exists_keyword_of_takes_exportedDeclaration htakes
  obtain ⟨gs, rfl⟩ := List.head?_eq_some_iff.mp hgs
  exact k.exists_declarationHead

/-- Dropping `export` before declarations makes no word that runs into none of them. -/
theorem lacks_withPlainDeclarations {w : List Char} {head : String}
    (hw : Misses w declarationHeads) (hhead : head.toList <+: w) (hmem : head ∈ ["__", "ex"])
    (h : Lacks w s) : Lacks w (StrippedModule.withPlainDeclarations s) := by
  refine lacks_replace writesFrom_exportedDeclaration hw hhead ?_ h
  intro last t r gs htakes
  obtain ⟨g, k, -, hgs⟩ := exists_keyword_of_takes_exportedDeclaration htakes
  obtain ⟨gs, rfl⟩ := List.head?_eq_some_iff.mp hgs
  exact (misses_keyword k).mono (by simpa using hmem)

/-- Assignments to the slot stay when `export` is dropped before declarations. -/
theorem slotWrite_infix_withPlainDeclarations (h : slotWrite <:+: s) :
    slotWrite <:+: StrippedModule.withPlainDeclarations s := by
  obtain ⟨w, hw⟩ : ∃ w, slotWrite = '_' :: w := ⟨slotWrite.tail, by decide⟩
  have hmisses : Misses slotWrite ["export"] := misses_of_clash (by decide)
  rw [hw] at h hmisses ⊢
  refine infix_replace_of_untouched begins_exportedDeclaration hmisses ?_ h
  intro last t r gs htakes
  obtain ⟨g, k, rfl, -⟩ := exists_keyword_of_takes_exportedDeclaration htakes
  -- The words that are matched are letters and white space.
  simp only [List.mem_append, not_or]
  refine ⟨⟨by decide, fun hmem => absurd (g.blank _ hmem) (by decide)⟩, ?_⟩
  cases k with
  | asyncFunction gap =>
    show '_' ∉ "async".toList ++ gap.chars ++ "function".toList
    simp only [List.mem_append, not_or]
    exact ⟨⟨by decide, fun hmem => absurd (gap.blank _ hmem) (by decide)⟩, by decide⟩
  | _ => decide

/-! ## Stripped modules -/

namespace StrippedModule

/-- What stands before the assignments of the default functions. -/
def ownText (source : List Char) : List Char :=
  withPlainDeclarations (withSlotAssignments slotName (withPlainFunctions (withoutLists source)))

theorem toList_code_ofSource (path source : String) :
    (ofSource path source ({} : Options).sharedDefaultSlot).code.toList =
      ownText source.toList ++
        (defaultFunctions (withoutLists source.toList)).flatMap (slotAssignment slotName) := by
  rw [ofSource, String.toList_ofList]
  rfl

theorem writesSharedSlot_ofSource (path source slot : String) :
    (ofSource path source slot).writesSharedSlot =
      (Shape.defaultExpression.occursIn (withPlainFunctions (withoutLists source.toList)) ||
        !(defaultFunctions (withoutLists source.toList)).isEmpty) := by
  rw [ofSource]

/-- No default export is left in a stripped module. -/
theorem lacks_defaultWords_ownText (g₁ g₂ : Gap) (source : List Char) :
    Lacks (defaultWords g₁ g₂) (ownText source) := by
  have hexport : "ex".toList <+: defaultWords g₁ g₂ :=
    (by decide : "ex".toList <+: "export".toList).trans (export_isPrefix_defaultWords g₁ g₂)
  refine lacks_withPlainDeclarations ?_ hexport (by simp) (lacks_withSlotAssignments g₁ g₂ _)
  exact (misses_defaultWords g₁ g₂).mono fun s hs => List.mem_cons_of_mem _ hs

/-- Without a default export the slot's name is not brought in. -/
theorem lacks_slotName_ownText {source : List Char} (h : Lacks slotName source)
    (hnone : Shape.defaultExpression.occursIn
      (withPlainFunctions (withoutLists source)) = false) : Lacks slotName (ownText source) := by
  have hdeclared : Lacks slotName (withPlainFunctions (withoutLists source)) :=
    lacks_withPlainFunctions (lacks_withoutLists (List.all_eq_true.mp (by decide)) h)
  have hassigned : withSlotAssignments slotName (withPlainFunctions (withoutLists source)) =
      withPlainFunctions (withoutLists source) :=
    replace_of_not_occursIn hnone _
  rw [ownText, hassigned]
  refine lacks_withPlainDeclarations ?_ underscores_isPrefix_slotName (by simp) hdeclared
  exact misses_slotName.mono fun s hs => List.mem_cons_of_mem _ hs

/-- A module assigns the slot exactly when its text shows an assignment. -/
theorem writesSharedSlot_iff {path source : String} (h : Lacks slotName source.toList) :
    (ofSource path source ({} : Options).sharedDefaultSlot).writesSharedSlot = true ↔
      slotWrite <:+: (ofSource path source ({} : Options).sharedDefaultSlot).code.toList := by
  rw [toList_code_ofSource, writesSharedSlot_ofSource]
  constructor
  · intro hwrites
    rcases Bool.or_eq_true_iff.mp hwrites with hvalue | hfunction
    · -- What replaced the match is still there behind the last pass.
      obtain ⟨m, hm⟩ := occursIn_iff.mp hvalue
      have hassigned : slotWrite <:+: withSlotAssignments slotName
          (withPlainFunctions (withoutLists source.toList)) :=
        infix_replace_of_mem_allMatches (f := fun _ => slotWrite) hm
      exact (slotWrite_infix_withPlainDeclarations hassigned).trans
        (List.prefix_append _ _).isInfix
    · cases hnames : defaultFunctions (withoutLists source.toList) with
      | nil => simp [hnames] at hfunction
      | cons name names =>
        rw [List.flatMap_cons]
        refine List.IsInfix.trans ?_ (List.suffix_append _ _).isInfix
        refine List.IsInfix.trans ?_ (List.prefix_append _ _).isInfix
        exact ⟨['\n'], name ++ [';'], by simp [slotAssignment, slotWrite]⟩
  · intro hwrite
    by_contra hnone
    rw [Bool.not_eq_true, Bool.or_eq_false_iff, Bool.not_eq_false', List.isEmpty_iff] at hnone
    rw [hnone.2, List.flatMap_nil, List.append_nil] at hwrite
    exact lacks_slotName_ownText h hnone.1 ((List.prefix_append _ _).isInfix.trans hwrite)

end StrippedModule

end LivePreview.Script
