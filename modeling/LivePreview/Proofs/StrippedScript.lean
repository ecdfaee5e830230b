/-
  LivePreview.Proofs.StrippedScript

  Stripping a script strips its items (`StrippedModule.stripped_textOf`), if none of them
  is carried on by the items behind it (`isClosed`).
-/

import LivePreview.Proofs.Stripping

namespace LivePreview.Script

open Pattern

/-! ## The passes over a script -/

section Script

variable {items : List Item}

theorem reads_items_defaultFunction (h : ∀ i ∈ items, i.WellFormed)
    (hclosed : isClosed items = true) : Shape.defaultFunction.Reads
      (fun m => "function ".toList ++ m.group 0) none (items.flatMap Item.unlisted) []
      (items.flatMap Item.declared) (items.flatMap Item.functionGroups) := by
  refine reads_flatMap Item.endsLine_unlisted ?_ atLine_none
  intro i behind hbehind last _
  have hitem := eachWithBehind_of_suffix hclosed hbehind
  rw [Item.isClosed, Bool.and_eq_true] at hitem
  exact reads_defaultFunction (h i (hbehind.mem List.mem_cons_self)) hitem.2

theorem reads_items_defaultExpression (h : ∀ i ∈ items, i.WellFormed) (slot : List Char) :
    Shape.defaultExpression.Reads (fun _ => slot ++ " = ".toList) none
      (items.flatMap Item.declared) [] (items.flatMap (Item.assigned slot))
      (items.flatMap Item.valueGroups) := by
  refine reads_flatMap Item.endsLine_declared ?_ atLine_none
  intro i behind hbehind last _
  exact reads_defaultExpression (h i (hbehind.mem List.mem_cons_self)) slot _

theorem reads_items_exportedDeclaration (h : ∀ i ∈ items, i.WellFormed) {slot : List Char}
    (hslot : isIdentifier slot = true) : Shape.exportedDeclaration.Reads (·.group 0) none
      (items.flatMap (Item.assigned slot)) [] (items.flatMap (Item.stripped slot))
      (items.flatMap Item.keywordGroups) := by
  refine reads_flatMap (Item.endsLine_assigned slot) ?_ atLine_none
  intro i behind hbehind last _
  exact reads_exportedDeclaration (h i (hbehind.mem List.mem_cons_self)) hslot _

theorem withoutLists_textOf (h : ∀ i ∈ items, i.WellFormed)
    (hfrom : ∀ i behind, i :: behind <:+ items → i.isList = true →
      leadsWith "from" (behind.flatMap Item.unimported) = false)
    (hclosed : isClosed items = true) :
    StrippedModule.withoutLists (textOf items) = items.flatMap Item.unlisted := by
  rw [StrippedModule.withoutLists, erase_importStatement h]
  -- Of an item that is closed, this pass needs what concerns lists.
  refine erase_exportList h (fun i behind hbehind => ?_) hfrom
  have hitem := eachWithBehind_of_suffix hclosed hbehind
  rw [Item.isClosed, Bool.and_eq_true] at hitem
  exact hitem.1

/-- The default functions are assigned in the order in which they stand. -/
theorem flatMap_slotAssignment (items : List Item) (slot : List Char) :
    ((items.flatMap Item.functionGroups).map (·.getD 0 [])).flatMap
      (StrippedModule.slotAssignment slot) = items.flatMap (Item.hoisted slot) := by
  rw [List.flatMap_map, List.flatMap_assoc]
  congr 1
  funext i
  cases i with
  | defaultFunction g₁ g₂ g₃ n text =>
    simp [Item.functionGroups, Item.hoisted, StrippedModule.slotAssignment]
  | _ => rfl

theorem isDefault_eq (items : List Item) :
    (!(items.flatMap Item.valueGroups).isEmpty || !(items.flatMap Item.functionGroups).isEmpty) =
      items.any Item.isDefault := by
  -- Only default exports keep groups in these two passes.
  induction items with
  | nil => rfl
  | cons i rest ih =>
    rw [List.any_cons, ← ih]
    cases i <;> simp [Item.valueGroups, Item.functionGroups, Item.isDefault]

theorem occursIn_defaultExpression (h : ∀ i ∈ items, i.WellFormed) :
    Shape.defaultExpression.occursIn (items.flatMap Item.declared) =
      !(items.flatMap Item.valueGroups).isEmpty := by
  have hgroups := (reads_items_defaultExpression h []).map_groups_allMatches
  rw [← hgroups, List.isEmpty_map, occursIn, first?]
  cases Shape.defaultExpression.allMatches (items.flatMap Item.declared) <;> rfl

/-- The default functions that are found are those of the items. -/
theorem defaultFunctions_unlisted (h : ∀ i ∈ items, i.WellFormed)
    (hclosed : isClosed items = true) :
    StrippedModule.defaultFunctions (items.flatMap Item.unlisted) =
      (items.flatMap Item.functionGroups).map (·.getD 0 []) := by
  rw [← (reads_items_defaultFunction h hclosed).map_groups_allMatches, List.map_map]
  rfl

end Script

/-! ## The stripped script -/

/-- The stripped script, read off the items. -/
def StrippedModule.ofItems (path : String) (items : List Item) (slot : String) :
    StrippedModule where
  path := path
  code := String.ofList
    (items.flatMap (Item.stripped slot.toList) ++ items.flatMap (Item.hoisted slot.toList))
  writesSharedSlot := items.any Item.isDefault

/-- Stripping goes item by item: imports and export lists go, declarations and default
    functions are declared plainly, default values are assigned to the slot, and the
    default functions are assigned to it at the end. -/
theorem StrippedModule.stripped_textOf (path slot : String) (items : List Item)
    (hslot : isIdentifier slot.toList = true) (h : ∀ i ∈ items, i.WellFormed)
    (hfrom : ∀ i ∈ items, i.leadsWithFrom = false) (hclosed : isClosed items = true) :
    ofSource path (String.ofList (textOf items)) slot = ofItems path items slot := by
  -- Each pass finds the text that the pass before it has left.
  have hlists := withoutLists_textOf h (fun i behind hbehind _ => leadsWith_unimported
    fun j hj => hfrom j (hbehind.mem (List.mem_cons_of_mem i hj))) hclosed
  have hfunctions := defaultFunctions_unlisted h hclosed
  have hdeclared : withPlainFunctions (items.flatMap Item.unlisted) =
      items.flatMap Item.declared :=
    (reads_items_defaultFunction h hclosed).replace_eq
  have hassigned : withSlotAssignments slot.toList (items.flatMap Item.declared) =
      items.flatMap (Item.assigned slot.toList) :=
    (reads_items_defaultExpression h slot.toList).replace_eq
  have hstripped : withPlainDeclarations (items.flatMap (Item.assigned slot.toList)) =
      items.flatMap (Item.stripped slot.toList) :=
    (reads_items_exportedDeclaration h hslot).replace_eq
  have hdefault := isDefault_eq items
  rw [ofSource, ofItems, String.toList_ofList, hlists, hfunctions, hdeclared, hassigned, hstripped,
    occursIn_defaultExpression h, flatMap_slotAssignment, List.isEmpty_map, hdefault]

def reactSpecifier : Specifier :=
  ⟨'"', "react".toList, '"', by decide, List.all_eq_true.mp (by decide), by decide⟩

/-- A script with an item of every kind. -/
def counterScript : List Item :=
  [.importing .empty .space (.name ⟨"React".toList, by decide⟩ .space .space)
      reactSpecifier ⟨.empty, some .empty⟩,
    .plain "'use client'".toList,
    .declaration .space (.asyncFunction .space) (.name .space ⟨"load".toList, by decide⟩
      "() \x7b\x7d".toList),
    .defaultFunction .space .space .space ⟨"Counter".toList, by decide⟩
      "() \x7b return null; \x7d".toList,
    .list Gap.space.toWhite (.names "load as read".toList (by decide)) none .empty true,
    .defaultValue .space .space (.name ⟨"Counter".toList, by decide⟩)]

theorem StrippedModule.stripped_textOf_counterScript :
    isIdentifier "__default".toList = true ∧ (∀ i ∈ counterScript, i.WellFormed) ∧
      (∀ i ∈ counterScript, i.leadsWithFrom = false) ∧ isClosed counterScript = true ∧
      ofSource "Counter.js" (String.ofList (textOf counterScript)) "__default" =
        ofItems "Counter.js" counterScript "__default" := by
  have hslot : isIdentifier "__default".toList = true := by decide
  have hitems : ∀ i ∈ counterScript, i.WellFormed := by decide
  have hfrom : ∀ i ∈ counterScript, i.leadsWithFrom = false := by decide
  have hclosed : isClosed counterScript = true := by decide
  exact ⟨hslot, hitems, hfrom, hclosed,
    stripped_textOf "Counter.js" "__default" counterScript hslot hitems hfrom hclosed⟩

/-- A bare star that the next line carries on. -/
def openStar : List Item :=
  [.list Gap.space.toWhite .all none .empty false, .plain "as x".toList]

/-- A default value that the next line makes a default function of. -/
def openFunction : List Item :=
  [.defaultValue .space .space (.other "function".toList), .plain "a".toList]

/-- Items that are carried on by the next line are not stripped by themselves. -/
theorem StrippedModule.not_stripped_textOf_of_open :
    isIdentifier "__default".toList = true ∧
      (∀ i ∈ openStar ++ openFunction, i.WellFormed ∧ i.leadsWithFrom = false) ∧
      ofSource "a.js" (String.ofList (textOf openStar)) "__default" ≠
        ofItems "a.js" openStar "__default" ∧
      ofSource "a.js" (String.ofList (textOf openFunction)) "__default" ≠
        ofItems "a.js" openFunction "__default" := by
  refine ⟨by decide, by decide, ?_, ?_⟩ <;>
    set_option maxRecDepth 2000 in decide

end LivePreview.Script
