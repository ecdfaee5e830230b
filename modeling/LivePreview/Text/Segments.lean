/-
  LivePreview.Text.Segments

  Cutting a text at a separator character.  All its segments are found with
  `List.splitOn`; `splitLast` cuts in two at the last separator, and
  `splitLast_eq_some_iff` says which cut that is.
-/

namespace LivePreview.Text

/-! ## All segments -/

/-- No segment holds the separator. -/
theorem not_mem_of_mem_splitOn {sep : Char} {s t : List Char} (h : t ∈ s.splitOn sep) :
    sep ∉ t := by
  induction s generalizing t with
  | nil => simp_all
  | cons c cs ih =>
    rw [List.splitOn_cons_eq_if_modifyHead] at h
    split at h
    · rcases List.mem_cons.mp h with rfl | h
      · exact List.not_mem_nil
      · exact ih h
    · next hc =>
      obtain ⟨u, rest, hs⟩ := List.exists_cons_of_ne_nil (List.splitOn_ne_nil sep cs)
      rw [hs, List.modifyHead_cons] at h
      rcases List.mem_cons.mp h with rfl | h
      · have hu := ih (hs ▸ List.mem_cons_self)
        simpa [hu] using fun e => hc (beq_iff_eq.mpr e.symm)
      · exact ih (hs ▸ List.mem_cons_of_mem u h)

/-! ## The last cut -/

/-- The text before and after the last separator, if there is one. -/
def splitLast (sep : Char) : List Char → Option (List Char × List Char)
  | [] => none
  | c :: cs =>
    match splitLast sep cs with
    | some (before, after) => some (c :: before, after)
    | none => if c = sep then some ([], cs) else none

theorem splitLast_eq_none_iff {sep : Char} {s : List Char} :
    splitLast sep s = none ↔ sep ∉ s := by
  induction s with
  | nil => simp [splitLast]
  | cons c cs ih =>
    rw [splitLast]
    cases h : splitLast sep cs with
    | some p =>
      have : sep ∈ cs := by
        rcases Classical.em (sep ∈ cs) with hm | hm
        · exact hm
        · rw [ih.mpr hm] at h; cases h
      simp [this]
    | none =>
      have hm := ih.mp h
      by_cases hc : c = sep
      · simp [hc]
      · simp [hc, hm, Ne.symm hc]

/-- A text cut by hand at a separator with none behind it is cut there. -/
theorem splitLast_append {sep : Char} {after : List Char} (h : sep ∉ after)
    (before : List Char) : splitLast sep (before ++ sep :: after) = some (before, after) := by
  induction before with
  | nil => simp [splitLast, splitLast_eq_none_iff.mpr h]
  | cons c cs ih => simp [splitLast, ih]

private theorem eq_append_of_splitLast {sep : Char} {s before after : List Char}
    (h : splitLast sep s = some (before, after)) : s = before ++ sep :: after ∧ sep ∉ after := by
  induction s generalizing before with
  | nil => simp [splitLast] at h
  | cons c cs ih =>
    rw [splitLast] at h
    split at h
    · next b a hcs =>
      obtain ⟨rfl, rfl⟩ : c :: b = before ∧ a = after := by simpa using h
      exact ⟨by rw [(ih hcs).1]; rfl, (ih hcs).2⟩
    · next hcs =>
      split at h
      · next hc =>
        obtain ⟨rfl, rfl⟩ : [] = before ∧ cs = after := by simpa using h
        exact ⟨by rw [hc]; rfl, splitLast_eq_none_iff.mp hcs⟩
      · cases h

theorem splitLast_eq_some_iff {sep : Char} {s before after : List Char} :
    splitLast sep s = some (before, after) ↔ s = before ++ sep :: after ∧ sep ∉ after :=
  ⟨eq_append_of_splitLast, fun ⟨hs, ha⟩ => hs ▸ splitLast_append ha before⟩

end LivePreview.Text
