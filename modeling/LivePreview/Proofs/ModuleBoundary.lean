/-
  LivePreview.Proofs.ModuleBoundary

  What is found in a joined text is what is found in its modules.

  The declarations that the hints look for begin a line, end in something else than a line
  feed and hold no slash (`IsDeclaration`), which is seen from the parts of their patterns.
  A heading begins with slashes and stands between line feeds.  So no declaration runs out
  of its module, and none begins in a heading (`Bundle.allMatches_bodyOf`).
-/

import LivePreview.Proofs.EnclosedText
import LivePreview.Proofs.SharedSlot

namespace LivePreview

namespace Pattern

variable {p : Pattern} {tail : List Char}

/-! ## What a pattern can take, seen from its parts -/

/-- The pattern can take the empty text. -/
def isNullable : Pattern → Bool
  | one _ => false
  | seq p q => p.isNullable && q.isNullable
  | either p q => p.isNullable || q.isNullable
  | group p => p.isNullable
  | nothing | many _ | few _ | wordBoundary | lineStart => true

/-- The pattern can take a text that begins with the character. -/
def canBegin (c : Char) : Pattern → Bool
  | one cls | many cls | few cls => cls c
  | seq p q => p.canBegin c || p.isNullable && q.canBegin c
  | either p q => p.canBegin c || q.canBegin c
  | group p => p.canBegin c
  | nothing | wordBoundary | lineStart => false

/-- The pattern can take a text that ends in the character. -/
def canEnd (c : Char) : Pattern → Bool
  | one cls | many cls | few cls => cls c
  | seq p q => q.canEnd c || q.isNullable && p.canEnd c
  | either p q => p.canEnd c || q.canEnd c
  | group p => p.canEnd c
  | nothing | wordBoundary | lineStart => false

/-- The pattern can take a text that holds the character. -/
def canHold (c : Char) : Pattern → Bool
  | one cls | many cls | few cls => cls c
  | seq p q | either p q => p.canHold c || q.canHold c
  | group p => p.canHold c
  | nothing | wordBoundary | lineStart => false

/-- The pattern takes something at the beginning of a line only. -/
def isAnchored : Pattern → Bool
  | lineStart => true
  | seq p _ => p.isAnchored
  | either p q => p.isAnchored && q.isAnchored
  | group p => p.isAnchored
  | nothing | one _ | many _ | few _ | wordBoundary => false

section Parts

variable {last : Option Char} {t r : List Char} {gs : List (List Char)} {c : Char}

theorem isNullable_of_takes (h : p.Takes last [] r gs) : p.isNullable = true := by
  induction p generalizing last r gs with
  | one cls =>
    obtain ⟨⟨c, hc, -⟩, -⟩ := h
    cases hc
  | seq p q ihp ihq =>
    obtain ⟨t₁, t₂, gs₁, gs₂, ht, -, hp, hq⟩ := h
    obtain ⟨rfl, rfl⟩ := List.nil_eq_append_iff.mp ht
    exact Bool.and_eq_true_iff.mpr ⟨ihp hp, ihq hq⟩
  | either p q ihp ihq => exact Bool.or_eq_true_iff.mpr (h.imp ihp ihq)
  | group p ih =>
    obtain ⟨hs, -, hp⟩ := h
    exact ih hp
  | nothing | many | few | wordBoundary | lineStart => rfl

theorem canBegin_of_takes (h : p.Takes last (c :: t) r gs) : p.canBegin c = true := by
  induction p generalizing last t r gs with
  | one cls =>
    obtain ⟨⟨d, hd, hcls⟩, -⟩ := h
    obtain ⟨rfl, -⟩ := List.cons.inj hd
    exact hcls
  | many cls | few cls => exact h.1 c List.mem_cons_self
  | seq p q ihp ihq =>
    obtain ⟨t₁, t₂, gs₁, gs₂, ht, -, hp, hq⟩ := h
    rw [canBegin, Bool.or_eq_true, Bool.and_eq_true]
    cases t₁ with
    | nil =>
      -- The first part takes nothing, so the character begins the second one.
      rw [List.nil_append] at ht
      exact .inr ⟨isNullable_of_takes hp, ihq (ht ▸ hq)⟩
    | cons d t₁ =>
      obtain ⟨rfl, -⟩ := List.cons.inj ht
      exact .inl (ihp hp)
  | either p q ihp ihq => exact Bool.or_eq_true_iff.mpr (h.imp ihp ihq)
  | group p ih =>
    obtain ⟨hs, -, hp⟩ := h
    exact ih hp
  | nothing | wordBoundary | lineStart => cases h.1

theorem canEnd_of_takes (h : p.Takes last t r gs) (ht : t.getLast? = some c) :
    p.canEnd c = true := by
  induction p generalizing last t r gs with
  | one cls =>
    obtain ⟨⟨d, rfl, hcls⟩, -⟩ := h
    obtain rfl : d = c := Option.some.inj ht
    exact hcls
  | many cls | few cls => exact h.1 c (List.mem_of_getLast? ht)
  | seq p q ihp ihq =>
    obtain ⟨t₁, t₂, gs₁, gs₂, rfl, -, hp, hq⟩ := h
    rw [canEnd, Bool.or_eq_true, Bool.and_eq_true]
    rcases List.eq_nil_or_concat t₂ with rfl | ⟨t₂, d, rfl⟩
    · -- The second part takes nothing, so the character ends the first one.
      rw [List.append_nil] at ht
      exact .inr ⟨isNullable_of_takes hq, ihp hp ht⟩
    · rw [List.getLast?_append_of_ne_nil _ (by simp)] at ht
      exact .inl (ihq hq ht)
  | either p q ihp ihq => exact Bool.or_eq_true_iff.mpr (h.imp (ihp · ht) (ihq · ht))
  | group p ih =>
    obtain ⟨hs, -, hp⟩ := h
    exact ih hp ht
  | nothing | wordBoundary | lineStart =>
    rw [h.1] at ht
    cases ht

theorem canHold_of_takes (h : p.Takes last t r gs) (ht : c ∈ t) : p.canHold c = true := by
  induction p generalizing last t r gs with
  | one cls =>
    obtain ⟨⟨d, rfl, hcls⟩, -⟩ := h
    exact List.mem_singleton.mp ht ▸ hcls
  | many cls | few cls => exact h.1 c ht
  | seq p q ihp ihq =>
    obtain ⟨t₁, t₂, gs₁, gs₂, rfl, -, hp, hq⟩ := h
    exact Bool.or_eq_true_iff.mpr ((List.mem_append.mp ht).imp (ihp hp) (ihq hq))
  | either p q ihp ihq => exact Bool.or_eq_true_iff.mpr (h.imp (ihp · ht) (ihq · ht))
  | group p ih =>
    obtain ⟨hs, -, hp⟩ := h
    exact ih hp ht
  | nothing | wordBoundary | lineStart =>
    rw [h.1] at ht
    cases ht

/-- A pattern that takes no text beginning with the character matches nothing before it. -/
theorem fails_cons (hp : p.isNullable = false) (hc : ∀ last t r gs, ¬ p.Takes last (c :: t) r gs)
    (last : Option Char) (s : List Char) : p.Fails last (c :: s) := by
  rw [fails_iff]
  intro t r gs hs h
  cases t with
  | nil => exact absurd (isNullable_of_takes h) (by simp [hp])
  | cons d t =>
    obtain ⟨rfl, -⟩ := List.cons.inj hs
    exact hc _ _ _ _ h

theorem atLine_of_takes (hp : p.isAnchored = true) (h : p.Takes last t r gs) : AtLine last := by
  induction p generalizing last t r gs with
  | lineStart =>
    rintro d rfl
    exact beq_iff_eq.mp h.2.2
  | seq p q ihp _ =>
    obtain ⟨t₁, t₂, gs₁, gs₂, -, -, htakes, -⟩ := h
    exact ihp hp htakes
  | either p q ihp ihq =>
    obtain ⟨hp, hq⟩ := Bool.and_eq_true_iff.mp hp
    exact h.elim (ihp hp) (ihq hq)
  | group p ih =>
    obtain ⟨hs, -, htakes⟩ := h
    exact ih hp htakes
  | nothing | one | many | few | wordBoundary => cases hp

end Parts

/-! ## Declarations between headings -/

/-- The pattern takes texts at the beginning of a line that are not empty, neither begin nor
    end in a line feed, and hold no slash. -/
structure IsDeclaration (p : Pattern) : Prop where
  nonempty : p.isNullable = false
  anchored : p.isAnchored = true
  not_begin : p.canBegin '\n' = false
  not_end : p.canEnd '\n' = false
  no_slash : p.canHold '/' = false

theorem isDeclaration_appDeclaration : Script.Shape.appDeclaration.IsDeclaration := by
  constructor <;> decide

theorem isDeclaration_componentFunction : Script.Shape.componentFunction.IsDeclaration := by
  constructor <;> decide

/-- What stands behind the code of a module: a line feed, and the next heading if there is
    one. -/
def IsClosing (tail : List Char) : Prop :=
  tail = ['\n'] ∨ ∃ r, tail = '\n' :: '\n' :: '/' :: r

theorem IsClosing.stops (h : IsClosing tail) : Stops Text.isWord tail := by
  have hline : Text.isWord '\n' = false := by decide
  rcases h with rfl | ⟨r, rfl⟩ <;> exact stops_cons.mpr hline

/-- What stands behind the code does not go on with a text that neither holds a slash nor ends
    in a line feed. -/
theorem IsClosing.eq_nil (h : IsClosing tail) {a r : List Char} (ha : tail = a ++ r)
    (hslash : '/' ∉ a) (hend : a.getLast? ≠ some '\n') : a = [] := by
  -- One or two characters are line feeds, and the third one is the slash.
  rcases a with _ | ⟨c, _ | ⟨d, _ | ⟨e, a⟩⟩⟩
  · rfl
  all_goals rcases h with rfl | ⟨u, rfl⟩ <;> grind

/-- The matches in a text, given the character before it. -/
def matchesAfter (p : Pattern) (last : Option Char) (s : List Char) : List Match :=
  (p.piecesAfter last 0 s).filterMap Piece.match?

theorem allMatches_eq_matchesAfter (p : Pattern) (s : List Char) :
    p.allMatches s = p.matchesAfter none s := by
  rw [allMatches, pieces_eq_piecesAfter, matchesAfter]

theorem matchesAfter_of_fails {last : Option Char} {c : Char} {s : List Char}
    (h : p.Fails last (c :: s)) : p.matchesAfter last (c :: s) = p.matchesAfter (some c) s := by
  rw [matchesAfter, piecesAfter_of_fails h]
  rfl

namespace IsDeclaration

/-- No declaration runs out of the code of a module. -/
theorem endsBefore (hp : p.IsDeclaration) (htail : IsClosing tail) : p.EndsBefore tail := by
  intro last s t r gs hs h
  rcases List.append_eq_append_iff.mp hs with ⟨a, rfl, ha⟩ | ⟨b, -, rfl⟩
  · -- A part `a` of the text behind the code would end in a line feed or reach a slash.
    have hslash : '/' ∉ a := fun hmem =>
      absurd (canHold_of_takes h (List.mem_append_right s hmem)) (by simp [hp.no_slash])
    have hend : a.getLast? ≠ some '\n' := fun hlast =>
      absurd (canEnd_of_takes h (by rw [List.getLast?_append, hlast, Option.some_or]))
        (by simp [hp.not_end])
    rw [ha, htail.eq_nil ha hslash hend, List.nil_append]
  · simp

theorem fails_lineFeed (hp : p.IsDeclaration) (last : Option Char) (s : List Char) :
    p.Fails last ('\n' :: s) :=
  fails_cons hp.nonempty (fun _ _ _ _ h =>
    absurd (canBegin_of_takes h) (by simp [hp.not_begin])) last s

theorem fails_slash (hp : p.IsDeclaration) (last : Option Char) (s : List Char) :
    p.Fails last ('/' :: s) :=
  fails_cons hp.nonempty (fun _ _ _ _ h =>
    absurd (canHold_of_takes h List.mem_cons_self) (by simp [hp.no_slash])) last s

theorem fails_inside (hp : p.IsDeclaration) {c : Char} (hc : c ≠ '\n') (s : List Char) :
    p.Fails (some c) s := by
  rw [fails_iff]
  intro t r gs _ h
  exact hc (atLine_of_takes hp.anchored h c rfl)

/-- No declaration begins in the rest of a line. -/
theorem matchesAfter_line (hp : p.IsDeclaration) {c : Char} (hc : c ≠ '\n') {line : List Char}
    (hline : '\n' ∉ line) (s : List Char) :
    p.matchesAfter (some c) (line ++ '\n' :: s) = p.matchesAfter (some '\n') s := by
  induction line generalizing c with
  | nil => exact matchesAfter_of_fails (hp.fails_lineFeed _ s)
  | cons d line ih =>
    rw [List.mem_cons, not_or] at hline
    rw [List.cons_append, matchesAfter_of_fails (hp.fails_inside hc _),
      ih (Ne.symm hline.1) hline.2]

/-- No declaration begins in a comment. -/
theorem matchesAfter_comment (hp : p.IsDeclaration) {line : List Char} (hline : '\n' ∉ line)
    (last : Option Char) (s : List Char) :
    p.matchesAfter last ('\n' :: '/' :: line ++ '\n' :: s) = p.matchesAfter (some '\n') s := by
  rw [List.cons_append, List.cons_append, matchesAfter_of_fails (hp.fails_lineFeed last _),
    matchesAfter_of_fails (hp.fails_slash _ _), hp.matchesAfter_line (by decide) hline]

/-- The declarations in the code of a module are found as in the code alone. -/
theorem matchesAfter_code (hp : p.IsDeclaration) (htail : IsClosing tail) (code : List Char) :
    p.matchesAfter (some '\n') (code ++ tail) =
      p.allMatches code ++ p.matchesAfter (some ((lastAfter none code).getD '\n')) tail := by
  have hpieces := piecesAfter_enclose htail.stops (hp.endsBefore htail) none
    (Nat.zero_le code.length)
  rw [Option.getD_none] at hpieces
  rw [allMatches_eq_matchesAfter, matchesAfter, hpieces, List.filterMap_append]
  rfl

end IsDeclaration

end Pattern

/-! ## The modules of a body -/

namespace Bundle

open Pattern Script

variable {p : Pattern} {stripped : List StrippedModule}

/-- A heading is a comment between two line feeds. -/
theorem exists_comment_of_heading (path : String) :
    ∃ line, (heading path).toList = '\n' :: '/' :: line ++ ['\n'] ∧
      ('\n' ∉ path.toList → '\n' ∉ line) := by
  refine ⟨'/' :: ' ' :: '=' :: '=' :: '=' :: ' ' :: path.toList ++ [' ', '=', '=', '='], ?_, ?_⟩
  · simp [heading]
  · intro h
    simp [h]

theorem isClosing_bodyOf (stripped : List StrippedModule) :
    IsClosing ('\n' :: (bodyOf stripped).toList) := by
  cases stripped with
  | nil => exact .inl rfl
  | cons m ms =>
    obtain ⟨line, hheading, -⟩ := exists_comment_of_heading m.path
    rw [toList_bodyOf_cons, toList_titled, hheading]
    exact .inr ⟨_, rfl⟩

theorem matchesAfter_bodyOf (hp : p.IsDeclaration) (h : ∀ m ∈ stripped, '\n' ∉ m.path.toList)
    (last : Option Char) :
    p.matchesAfter last (bodyOf stripped).toList =
      stripped.flatMap fun m => p.allMatches m.code.toList := by
  induction stripped generalizing last with
  | nil => rfl
  | cons m ms ih =>
    rw [List.forall_mem_cons] at h
    obtain ⟨line, hheading, hline⟩ := exists_comment_of_heading m.path
    -- A comment, the code, and a line feed before the rest of the body.
    have htext : (bodyOf (m :: ms)).toList =
        '\n' :: '/' :: line ++ '\n' :: (m.code.toList ++ '\n' :: (bodyOf ms).toList) := by
      rw [toList_bodyOf_cons, toList_titled, hheading]
      simp
    rw [htext, hp.matchesAfter_comment (hline h.1), hp.matchesAfter_code (isClosing_bodyOf ms),
      matchesAfter_of_fails (hp.fails_lineFeed _ _), ih h.2, List.flatMap_cons]

/-- The declarations that are found in a body are those in its modules, each module's code
    taken alone. -/
theorem allMatches_bodyOf (hp : p.IsDeclaration) (h : ∀ m ∈ stripped, '\n' ∉ m.path.toList) :
    p.allMatches (bodyOf stripped).toList =
      stripped.flatMap fun m => p.allMatches m.code.toList := by
  rw [allMatches_eq_matchesAfter, matchesAfter_bodyOf hp h]

theorem occursIn_bodyOf (hp : p.IsDeclaration) (h : ∀ m ∈ stripped, '\n' ∉ m.path.toList) :
    p.occursIn (bodyOf stripped).toList = stripped.any fun m => p.occursIn m.code.toList := by
  rw [Bool.eq_iff_iff, occursIn_iff, allMatches_bodyOf hp h]
  simp only [List.mem_flatMap, List.any_eq_true, occursIn_iff]
  constructor
  · rintro ⟨x, m, hm, hx⟩
    exact ⟨m, hm, x, hx⟩
  · rintro ⟨m, hm, x, hx⟩
    exact ⟨x, m, hm, hx⟩

/-- A name is a candidate of a body if it is one of a module's code taken alone. -/
theorem mem_componentNames_bodyOf (h : ∀ m ∈ stripped, '\n' ∉ m.path.toList) {name : String} :
    name ∈ componentNames (bodyOf stripped).toList ↔
      ∃ m ∈ stripped, name ∈ componentNames m.code.toList := by
  unfold componentNames
  rw [allMatches_bodyOf isDeclaration_componentFunction h]
  simp only [List.mem_eraseDups, List.map_flatMap, List.mem_flatMap]

end Bundle

end LivePreview
