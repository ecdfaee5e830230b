/-
  LivePreview.Text.Blank

  White space as Unicode's `White_Space` property has it, and the texts cut
  free of it at both ends.
-/

namespace LivePreview.Text

/-- White space: tab to carriage return, space, next line, no-break space, the
    spaces and separators of the general punctuation block, the ideographic
    space. -/
def isBlank (c : Char) : Bool :=
  let n := c.toNat
  (9 ≤ n && n ≤ 13) || n == 32 || n == 0x85 || n == 0xa0 || n == 0x1680 ||
    (0x2000 ≤ n && n ≤ 0x200a) || n == 0x2028 || n == 0x2029 || n == 0x202f ||
    n == 0x205f || n == 0x3000

/-- The text without the white space at its two ends. -/
def trim (s : List Char) : List Char :=
  ((s.dropWhile isBlank).reverse.dropWhile isBlank).reverse

/-- The text holds nothing but white space. -/
def isBlankText (s : List Char) : Bool := s.all isBlank

/-- Trimming takes white space away at the two ends, and nothing else. -/
theorem exists_trim (s : List Char) :
    ∃ lead tail, s = lead ++ (trim s ++ tail) ∧ (∀ c ∈ lead, isBlank c = true) ∧
      ∀ c ∈ tail, isBlank c = true := by
  have htaken : ∀ r : List Char, ∀ c ∈ r.takeWhile isBlank, isBlank c = true :=
    fun _ => List.all_eq_true.mp List.all_takeWhile
  refine ⟨s.takeWhile isBlank, ((s.dropWhile isBlank).reverse.takeWhile isBlank).reverse, ?_,
    htaken s, fun c hc => htaken _ c (List.mem_reverse.mp hc)⟩
  rw [trim, ← List.reverse_append, List.takeWhile_append_dropWhile, List.reverse_reverse,
    List.takeWhile_append_dropWhile]

/-- A trimmed text begins with no white space. -/
theorem isBlank_of_head?_trim {s : List Char} {c : Char} (h : (trim s).head? = some c) :
    isBlank c = false := by
  have hpre : trim s <+: s.dropWhile isBlank := by
    have hsuffix := List.dropWhile_suffix isBlank (l := (s.dropWhile isBlank).reverse)
    simpa [trim] using List.reverse_prefix.mpr hsuffix
  obtain ⟨tail, htail⟩ := hpre
  have hstop := List.head?_dropWhile_not isBlank s
  rw [← htail, List.head?_append, h] at hstop
  exact hstop

end LivePreview.Text
