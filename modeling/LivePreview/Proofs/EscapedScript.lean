/-
  LivePreview.Proofs.EscapedScript

  Escaped script text without its backslashes.

  Escaping puts a backslash into every closing tag of a script element, whatever the case of
  its letters, and writes the tag in lower case.  So the escaped text without its backslashes
  is the text with its closing tags in lower case (`lowersTags_withoutBackslashes`): the text
  itself, exactly if none of them was written otherwise.  A second escaping finds nothing to
  do (`escapeScript_escapeScript`).
-/

import LivePreview.Proofs.ClosingTags

namespace LivePreview.Html

open Pattern Script Text

variable {l s t : List Char}

/-! ## Closing tags in any spelling -/

/-- The beginning of a closing tag, with letters of any case, the long s among them. -/
def IsTag (l : List Char) : Prop := l.map Folding.unicode.fold = closingTag

instance (l : List Char) : Decidable (IsTag l) := inferInstanceAs (Decidable (_ = _))

theorem IsTag.length_eq (h : IsTag l) : l.length = closingTag.length := by
  rw [← h, List.length_map]

theorem IsTag.exists_cons (h : IsTag l) : ∃ w, l = '<' :: w := by
  obtain ⟨w, rfl⟩ := isPrefix_of_folded h
  exact ⟨_, rfl⟩

/-- Every text that the pattern takes folds to the word. -/
def FoldsTo (p : Pattern) (w : List Char) : Prop :=
  ∀ last t r gs, p.Takes last t r gs → t.map Folding.unicode.fold = w

theorem foldsTo_one {cls : Char → Bool} {d : Char}
    (h : ∀ c, cls c = true → Folding.unicode.fold c = d) : FoldsTo (one cls) [d] := by
  rintro last _ r gs ⟨⟨c, rfl, hc⟩, -⟩
  rw [List.map_singleton, h c hc]

theorem FoldsTo.append {p q : Pattern} {u v : List Char} (hp : FoldsTo p u) (hq : FoldsTo q v) :
    FoldsTo (p ++ q) (u ++ v) := by
  rintro last _ r gs ⟨t₁, t₂, gs₁, gs₂, rfl, -, ht₁, ht₂⟩
  rw [List.map_append, hp _ _ _ _ ht₁, hq _ _ _ _ ht₂]

theorem foldsTo_scriptClose : FoldsTo Shape.scriptClose closingTag := by
  refine (((((((foldsTo_one ?_).append (foldsTo_one ?_)).append (foldsTo_one ?_)).append
    (foldsTo_one ?_)).append (foldsTo_one ?_)).append (foldsTo_one ?_)).append
    (foldsTo_one ?_)).append (foldsTo_one ?_)
  -- The characters of each class are listed, and fold to one letter.
  all_goals
    simp only [Bool.or_eq_true, beq_iff_eq, or_assoc, forall_eq_or_imp, forall_eq]
    decide

/-! ## Tags in lower case -/

/-- The second text is the first one with its closing tags in lower case. -/
inductive LowersTags : List Char → List Char → Prop
  | nil : LowersTags [] []
  | plain {c : Char} {s t : List Char} (hfree : ∀ l, l <+: c :: s → ¬ IsTag l)
      (hrest : LowersTags s t) : LowersTags (c :: s) (c :: t)
  | tag {l s t : List Char} (htag : IsTag l) (hrest : LowersTags s t) :
      LowersTags (l ++ s) (closingTag ++ t)

/-- No letter is changed but for its case. -/
theorem LowersTags.map_fold (h : LowersTags s t) :
    t.map Folding.unicode.fold = s.map Folding.unicode.fold := by
  induction h with
  | nil => rfl
  | plain _ _ ih => rw [List.map_cons, List.map_cons, ih]
  | tag htag _ ih =>
    have hlower : closingTag.map Folding.unicode.fold = closingTag := by decide
    rw [List.map_append, List.map_append, ih, htag, hlower]

/-- Behind a closing tag the next one does not begin before its end. -/
theorem eq_or_infix_of_infix_closingTag (hl : IsTag l) (h : l <:+: closingTag ++ s) :
    l = closingTag ∨ l <:+: s := by
  obtain ⟨w, hw⟩ := hl.exists_cons
  rcases List.infix_cons_iff.mp h with hfront | hlater
  · have hpre : l <+: closingTag :=
      List.prefix_of_prefix_length_le hfront (List.prefix_append closingTag s) hl.length_eq.le
    exact .inl (hpre.eq_of_length hl.length_eq)
  · refine .inr (by_contra fun hnot => ?_)
    rw [hw] at hlater hnot
    exact not_infix_append (by decide) hnot hlater

/-- The text stays as it is exactly if all of its closing tags are in lower case. -/
theorem LowersTags.eq_iff (h : LowersTags s t) :
    t = s ↔ ∀ l, l <:+: s → IsTag l → l = closingTag := by
  induction h with
  | nil =>
    refine iff_of_true rfl fun l hl htag => ?_
    rw [List.infix_nil.mp hl] at htag
    cases htag
  | @plain c s t hfree _ ih =>
    rw [List.cons_inj_right, ih]
    refine forall_congr' fun l => ?_
    rw [List.infix_cons_iff]
    constructor
    · rintro hlater (hfront | hl) htag
      · exact absurd htag (hfree l hfront)
      · exact hlater hl htag
    · exact fun hall hl => hall (.inr hl)
  | @tag l s t htag _ ih =>
    -- A tag holds no other tag, so one that begins in it is the tag or stands behind it.
    constructor
    · intro heq l' hl' htag'
      obtain ⟨hlower, hrest⟩ := List.append_inj heq htag.length_eq.symm
      rw [← hlower] at hl'
      exact (eq_or_infix_of_infix_closingTag htag' hl').elim id
        fun hlater => ih.mp hrest l' hlater htag'
    · intro hall
      rw [hall l (List.prefix_append l s).isInfix htag,
        ih.mpr fun l' hl' => hall l' (hl'.trans (List.suffix_append l s).isInfix)]

/-! ## Escaped text -/

/-- The text without its backslashes. -/
def withoutBackslashes (s : String) : String := String.ofList (s.toList.filter (· != '\\'))

/-- Without its backslashes, a text whose matches are replaced has its tags in lower case. -/
theorem lowersTags_of_cuts {last : Option Char} {ps : List Piece}
    (h : Shape.scriptClose.Cuts last s ps) (hs : '\\' ∉ s) :
    LowersTags s
      ((ps.flatMap (Piece.replace fun _ => "<\\/script".toList)).filter (· != '\\')) := by
  induction h with
  | nil => exact .nil
  | @plain last c s ps hidle _ ih =>
    rw [List.mem_cons, not_or] at hs
    have hc : (c != '\\') = true := bne_iff_ne.mpr (Ne.symm hs.1)
    rw [List.flatMap_cons, Piece.replace, List.singleton_append, List.filter_cons, if_pos hc]
    refine .plain ?_ (ih hs.2)
    -- Where a tag begins, there is a match.
    rintro l ⟨r, hr⟩ htag
    rw [← hr] at hidle
    exact not_isIdle_of_takes (fun _ _ _ _ => ne_nil_of_takes_scriptClose)
      (takesFolded_scriptClose .unicode l htag last r) hidle
  | @hit last t r gs ps _ htakes _ ih =>
    rw [List.mem_append, not_or] at hs
    have htag : "<\\/script".toList.filter (· != '\\') = closingTag := by decide
    rw [List.flatMap_cons, List.filter_append, Piece.replace, htag]
    exact .tag (foldsTo_scriptClose _ _ _ _ htakes) (ih hs.2)

theorem lowersTags_withoutBackslashes {code : String} (h : '\\' ∉ code.toList) :
    LowersTags code.toList (withoutBackslashes (escapeScript code)).toList := by
  rw [withoutBackslashes, escapeScript, String.toList_ofList, String.toList_ofList,
    escapeScriptChars, replace]
  exact lowersTags_of_cuts (cuts_pieces _ _) h

theorem escapeScript_escapeScript (code : String) :
    escapeScript (escapeScript code) = escapeScript code := by
  have hfree : Shape.scriptClose.occursIn (escapeScript code).toList = false := by
    rw [Bool.eq_false_iff]
    intro hoccurs
    obtain ⟨m, hm⟩ := occursIn_iff.mp hoccurs
    obtain ⟨-, a, r, hsplit, htakes⟩ := exists_takes_of_mem_allMatches hm
    -- A match folds to the closing tag, and escaped text holds none.
    refine closings_eq_zero_iff.mp (closings_escapeScript (φ := .unicode) code) ?_
    rw [Folding.text, hsplit, List.map_append, List.map_append,
      foldsTo_scriptClose _ _ _ _ htakes]
    exact List.infix_append' _ _ _
  rw [escapeScript, escapeScriptChars, replace_of_not_occursIn hfree, String.ofList_toList]

/-- Escaping a text without backslashes brings some in and changes nothing else but the case of
    letters in closing tags: without them the text is back if and only if its closing tags are
    all in lower case.  Escaping twice is escaping once. -/
theorem withoutBackslashes_escapeScript (code : String) :
    ('\\' ∉ code.toList →
      LowersTags code.toList (withoutBackslashes (escapeScript code)).toList ∧
        Folding.unicode.text (withoutBackslashes (escapeScript code)) =
          Folding.unicode.text code ∧
        (withoutBackslashes (escapeScript code) = code ↔
          ∀ l, l <:+: code.toList → IsTag l → l = closingTag)) ∧
      escapeScript (escapeScript code) = escapeScript code := by
  refine ⟨fun h => ?_, escapeScript_escapeScript code⟩
  have hlowers := lowersTags_withoutBackslashes h
  refine ⟨hlowers, hlowers.map_fold, ?_⟩
  rw [← String.toList_inj]
  exact hlowers.eq_iff

/-- A tag in lower case comes back, and one in capitals does not. -/
theorem withoutBackslashes_escapeScript_twoTags :
    '\\' ∉ "s = '</script>';".toList ∧
      withoutBackslashes (escapeScript "s = '</script>';") = "s = '</script>';" ∧
      (∀ l, l <:+: "s = '</script>';".toList → IsTag l → l = closingTag) ∧
      '\\' ∉ "s = '</SCRIPT>';".toList ∧
      withoutBackslashes (escapeScript "s = '</SCRIPT>';") ≠ "s = '</SCRIPT>';" ∧
      escapeScript (escapeScript "s = '</SCRIPT>';") = escapeScript "s = '</SCRIPT>';" := by
  have hback : withoutBackslashes (escapeScript "s = '</script>';") = "s = '</script>';" := by
    decide
  have hlower := (withoutBackslashes_escapeScript "s = '</script>';").1 (by decide)
  obtain ⟨hupper, hagain⟩ := withoutBackslashes_escapeScript "s = '</SCRIPT>';"
  have htag : "</SCRIPT".toList <:+: "s = '</SCRIPT>';".toList :=
    ⟨"s = '".toList, ">';".toList, by decide⟩
  refine ⟨by decide, hback, hlower.2.2.mp hback, by decide, fun heq => ?_, hagain⟩
  exact absurd ((hupper (by decide)).2.2.mp heq _ htag (by decide)) (by decide)

/-- A string of the code that changes its letters. -/
theorem exists_respelled_string :
    '\\' ∉ "const s = \"</SCRIPT>\";".toList ∧
      escapeScript "const s = \"</SCRIPT>\";" = "const s = \"<\\/script>\";" ∧
      withoutBackslashes (escapeScript "const s = \"</SCRIPT>\";") ≠
        "const s = \"</SCRIPT>\";" := by
  have hcode : escapeScript "const s = \"</SCRIPT>\";" = "const s = \"<\\/script>\";" := by
    decide
  exact ⟨by decide, hcode, by rw [hcode]; decide⟩

end LivePreview.Html
