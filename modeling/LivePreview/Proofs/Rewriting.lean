/-
  LivePreview.Proofs.Rewriting

  Words in a text whose matches are replaced.

  `Cuts` says how a text is cut into matches and the characters between them; every
  search and every replacement is one cut (`cuts_pieces`).  A word of the rewritten text
  stood in the text before at a place without a match, unless it begins inside a replaced
  text or a replaced text stands at its end (`Cuts.exists_idle`).  So a pass makes no word
  that its replaced texts have no part in (`lacks_erase`, `lacks_replace`), and it keeps the
  words that no match touches (`infix_replace_of_untouched`).
-/

import LivePreview.Proofs.Reading
import LivePreview.Proofs.Words

namespace LivePreview.Pattern

open Text (Lacks Misses)

variable {p : Pattern} {f : Match → List Char} {last : Option Char}

/-! ## Cuts -/

/-- At most the empty text is matched at the place. -/
def IsIdle (p : Pattern) (last : Option Char) (s : List Char) : Prop :=
  ∀ m, p.matchAt? last s = some m → m.text = []

/-- A text, its first character behind `last`, cut into matches and the characters at which
    nothing is matched. -/
inductive Cuts (p : Pattern) : Option Char → List Char → List Piece → Prop
  | nil {last : Option Char} : Cuts p last [] []
  | plain {last : Option Char} {c : Char} {s : List Char} {ps : List Piece}
      (hidle : p.IsIdle last (c :: s)) (hrest : Cuts p (some c) s ps) :
      Cuts p last (c :: s) (.plain c :: ps)
  | hit {last : Option Char} {t r : List Char} {gs : List (List Char)} {ps : List Piece}
      (hne : t ≠ []) (htakes : p.Takes last t r gs) (hrest : Cuts p (lastAfter last t) r ps) :
      Cuts p last (t ++ r) (.hit ⟨t, gs⟩ :: ps)

theorem takes_of_matchAt? {s : List Char} {m : Match} (h : p.matchAt? last s = some m) :
    ∃ r, s = m.text ++ r ∧ p.Takes last m.text r m.groups := by
  obtain ⟨y, hy, rfl⟩ := Option.map_eq_some_iff.mp h
  obtain ⟨t, r, gs, rfl, htakes, rfl⟩ := mem_outcomes_iff.mp (List.mem_of_head? hy)
  exact ⟨r, rfl, htakes⟩

/-- A place at which a text can be taken is not idle, if no empty text is ever taken. -/
theorem not_isIdle_of_takes {t r : List Char} {gs : List (List Char)}
    (hne : ∀ last t r gs, p.Takes last t r gs → t ≠ []) (h : p.Takes last t r gs) :
    ¬ p.IsIdle last (t ++ r) := by
  intro hidle
  have hmem := mem_outcomes_iff.mpr ⟨t, r, gs, rfl, h, rfl⟩
  cases hmatch : p.matchAt? last (t ++ r) with
  | none =>
    rw [matchAt?, Option.map_eq_none_iff, List.head?_eq_none_iff] at hmatch
    simp [hmatch] at hmem
  | some m =>
    obtain ⟨r', -, htakes⟩ := takes_of_matchAt? hmatch
    exact hne _ _ _ _ htakes (hidle m hmatch)

theorem cuts_piecesAfter (p : Pattern) (last : Option Char) (s : List Char) :
    p.Cuts last s (p.piecesAfter last 0 s) := by
  -- By induction on the length, since the cut goes on behind a whole match.
  induction hn : s.length using Nat.strongRecOn generalizing last s with
  | ind n ih =>
    subst hn
    cases s with
    | nil => exact .nil
    | cons c s =>
      rw [piecesAfter]
      split
      · next d ds gs hmatch =>
        obtain ⟨r, hs, htakes⟩ := takes_of_matchAt? hmatch
        obtain ⟨rfl, rfl⟩ : c = d ∧ s = ds ++ r := by simpa using hs
        have hlength : r.length < (c :: (ds ++ r)).length := by
          simp only [List.length_cons, List.length_append]
          omega
        rw [piecesAfter_length, ← lastAfter_cons last]
        exact .hit (List.cons_ne_nil c ds) htakes (ih _ hlength _ _ rfl)
      · next hnone =>
        have hidle : p.IsIdle last (c :: s) := by
          rintro ⟨text, gs⟩ hmatch
          cases text with
          | nil => rfl
          | cons d ds => exact absurd hmatch (hnone d ds gs)
        exact .plain hidle (ih _ (Nat.lt_succ_self _) _ _ rfl)

/-- The pieces of a text are a cut of it. -/
theorem cuts_pieces (p : Pattern) (s : List Char) : p.Cuts none s (p.pieces s) := by
  rw [pieces_eq_piecesAfter]
  exact cuts_piecesAfter p none s

/-- A match stands in the text that is cut. -/
theorem Cuts.exists_takes {s : List Char} {ps : List Piece} (h : p.Cuts last s ps) {m : Match}
    (hm : .hit m ∈ ps) : m.text ≠ [] ∧ ∃ a r, s = a ++ (m.text ++ r) ∧
      p.Takes (lastAfter last a) m.text r m.groups := by
  induction h with
  | nil => cases hm
  | @plain last c s ps hidle hrest ih =>
    obtain ⟨hne, a, r, rfl, htakes⟩ := ih (by simpa using hm)
    exact ⟨hne, c :: a, r, rfl, by rwa [lastAfter_cons]⟩
  | @hit last t r gs ps hne htakes hrest ih =>
    rcases List.mem_cons.mp hm with heq | hm
    · obtain rfl : m = ⟨t, gs⟩ := Piece.hit.inj heq
      exact ⟨hne, [], r, rfl, htakes⟩
    · obtain ⟨hne, a, r, rfl, htakes⟩ := ih hm
      exact ⟨hne, t ++ a, r, by simp, by rwa [lastAfter_append]⟩

theorem mem_pieces_of_mem_allMatches {s : List Char} {m : Match} (h : m ∈ p.allMatches s) :
    .hit m ∈ p.pieces s := by
  obtain ⟨x, hx, hm⟩ := List.mem_filterMap.mp h
  cases x with
  | plain c => cases hm
  | hit m' => exact Option.some.inj hm ▸ hx

/-- A match that is found stands in the text. -/
theorem exists_takes_of_mem_allMatches {s : List Char} {m : Match} (h : m ∈ p.allMatches s) :
    m.text ≠ [] ∧ ∃ a r, s = a ++ (m.text ++ r) ∧
      p.Takes (lastAfter none a) m.text r m.groups :=
  (cuts_pieces p s).exists_takes (mem_pieces_of_mem_allMatches h)

/-- What replaces a match stands in the rewritten text. -/
theorem infix_replace_of_mem_allMatches {s : List Char} {m : Match} (h : m ∈ p.allMatches s) :
    f m <:+: p.replace f s := by
  obtain ⟨qs, qs', hps⟩ := List.append_of_mem (mem_pieces_of_mem_allMatches h)
  rw [replace, hps, List.flatMap_append, List.flatMap_cons]
  exact List.infix_append' _ _ _

theorem occursIn_iff {s : List Char} : p.occursIn s = true ↔ ∃ m, m ∈ p.allMatches s := by
  rw [occursIn, first?]
  cases p.allMatches s with
  | nil => simp
  | cons m ms => simp

/-! ## Words of the rewritten text -/

/-- A word at the front of the rewritten text is at the front of the text if no replaced text
    stands where the word goes on. -/
theorem Cuts.isPrefix_of_rewritten {s w : List Char} {ps : List Piece} (h : p.Cuts last s ps)
    (hw : w <+: ps.flatMap (Piece.replace f))
    (hbar : ∀ w₁ w₂, w = w₁ ++ w₂ → w₂ ≠ [] → ∀ t r gs, t ≠ [] →
      p.Takes (lastAfter last w₁) t r gs → ∀ u, ¬ w₂ <+: f ⟨t, gs⟩ ++ u) : w <+: s := by
  induction h generalizing w with
  | nil => exact hw
  | @plain last c s ps hidle hrest ih =>
    cases w with
    | nil => exact List.nil_prefix
    | cons d w =>
      obtain ⟨rfl, htail⟩ := List.cons_prefix_cons.mp hw
      refine List.cons_prefix_cons.mpr ⟨rfl, ih htail ?_⟩
      intro w₁ w₂ hsplit hw₂ t r gs hne htakes
      refine hbar (d :: w₁) w₂ (by rw [hsplit, List.cons_append]) hw₂ t r gs hne ?_
      rwa [lastAfter_cons]
  | @hit last t r gs ps hne htakes hrest ih =>
    -- A match here would put a replaced text where the word goes on.
    cases w with
    | nil => exact List.nil_prefix
    | cons d w => exact absurd hw (hbar [] (d :: w) rfl (by simp) t r gs hne htakes _)

/-- Where a word of the rewritten text comes from: it stood in the text at a place without a
    match, if it does not begin inside a replaced text and none stands where it goes on. -/
theorem Cuts.exists_idle {s w : List Char} {ps : List Piece} (h : p.Cuts last s ps)
    (hne : w ≠ []) (hw : w <:+: ps.flatMap (Piece.replace f))
    (hbar : ∀ w₁ w₂, w = w₁ ++ w₂ → w₁ ≠ [] → w₂ ≠ [] → ∀ t r gs, t ≠ [] →
      p.Takes w₁.getLast? t r gs → ∀ u, ¬ w₂ <+: f ⟨t, gs⟩ ++ u)
    (hinside : ∀ last t r gs ps, t ++ r <:+ s → p.Takes last t r gs →
      p.Cuts (lastAfter last t) r ps → ∀ v, v <:+ f ⟨t, gs⟩ → v ≠ [] →
        ¬ w <+: v ++ ps.flatMap (Piece.replace f)) :
    ∃ a b, s = a ++ b ∧ w <+: b ∧ p.IsIdle (lastAfter last a) b := by
  induction h with
  | nil => exact absurd (List.infix_nil.mp hw) hne
  | @plain last c s ps hidle hrest ih =>
    rcases List.infix_cons_iff.mp hw with hfront | hlater
    · refine ⟨[], c :: s, rfl, ?_, hidle⟩
      obtain ⟨d, w, rfl⟩ := List.exists_cons_of_ne_nil hne
      obtain ⟨rfl, htail⟩ := List.cons_prefix_cons.mp hfront
      refine List.cons_prefix_cons.mpr ⟨rfl, hrest.isPrefix_of_rewritten htail ?_⟩
      intro w₁ w₂ hsplit hw₂ t r gs ht htakes
      refine hbar (d :: w₁) w₂ (by rw [hsplit, List.cons_append]) (by simp) hw₂ t r gs ht ?_
      rwa [← lastAfter_cons none, lastAfter, Option.or_none] at htakes
    · obtain ⟨a, b, rfl, hb, hidle'⟩ := ih hlater fun last t r gs ps hsuffix =>
        hinside last t r gs ps (hsuffix.trans (List.suffix_cons c _))
      exact ⟨c :: a, b, rfl, hb, by rwa [lastAfter_cons]⟩
  | @hit last t r gs ps ht htakes hrest ih =>
    have hpart := hinside last t r gs ps (List.suffix_refl _) htakes hrest
    rw [List.flatMap_cons, Piece.replace] at hw
    have hlater : w <:+: ps.flatMap (Piece.replace f) := by
      rcases List.infix_append_iff.mp hw with ⟨y, z, hyz⟩ | hlater | ⟨v, x, rfl, hv, hx⟩
      · -- The replaced text goes on behind the word.
        refine absurd ?_ (hpart (w ++ z) ⟨y, by rw [← hyz, List.append_assoc]⟩ (by simp [hne]))
        rw [List.append_assoc]
        exact List.prefix_append _ _
      · exact hlater
      · -- The word begins in the replaced text and goes on behind it.
        cases v with
        | nil => exact hx.isInfix
        | cons d v =>
          exact absurd ((List.prefix_append_right_inj _).mpr hx) (hpart _ hv (by simp))
    obtain ⟨a, b, rfl, hb, hidle⟩ := ih hlater fun last t' r' gs ps hsuffix =>
      hinside last t' r' gs ps (hsuffix.trans (List.suffix_append t r))
    exact ⟨t ++ a, b, by simp, hb, by rwa [lastAfter_append]⟩

/-- Taking the matches out makes no word if no match stands behind a character of the
    word. -/
theorem lacks_erase {s w : List Char}
    (hw : ∀ c ∈ w, ∀ t r gs, t ≠ [] → ¬ p.Takes (some c) t r gs) (h : Lacks w s) :
    Lacks w (p.erase s) := by
  intro hin
  have hfrom : ∃ a b, s = a ++ b ∧ w <+: b ∧ p.IsIdle (lastAfter none a) b := by
    refine (cuts_pieces p s).exists_idle h.ne_nil hin ?_ ?_
    · -- A match in the middle of the word stands behind one of its characters.
      intro w₁ w₂ hsplit hw₁ _ t r gs ht htakes
      have hmem := hsplit ▸ List.mem_append_left w₂ (List.getLast_mem hw₁)
      rw [List.getLast?_eq_some_getLast hw₁] at htakes
      exact absurd htakes (hw _ hmem t r gs ht)
    · intro _ _ _ _ _ _ _ _ v hv hvne
      exact absurd (List.suffix_nil.mp hv) hvne
  obtain ⟨a, b, rfl, hb, -⟩ := hfrom
  exact h (hb.isInfix.trans (List.suffix_append a b).isInfix)

/-- Each replaced text begins with one of `heads`. -/
def WritesFrom (p : Pattern) (f : Match → List Char) (heads : List String) : Prop :=
  ∀ last t r gs, p.Takes last t r gs → ∃ s ∈ heads, s.toList <+: f ⟨t, gs⟩

/-- A word of the rewritten text stood in the text, at a place without a match, if it runs
    into no replaced text and would not have begun inside of one before the text went on. -/
theorem exists_idle_of_infix_replace {s w : List Char} {heads : List String} (hne : w ≠ [])
    (hf : p.WritesFrom f heads) (hw : Misses w heads)
    (hinside : ∀ last t r gs, t ++ r <:+ s → p.Takes last t r gs → ∀ v, v <:+ f ⟨t, gs⟩ →
      v ≠ [] → ¬ w <+: v ++ r) (h : w <:+: p.replace f s) :
    ∃ a b, s = a ++ b ∧ w <+: b ∧ p.IsIdle (lastAfter none a) b := by
  have hbar : ∀ v, v <:+ w → v ≠ [] → ∀ last t r gs, p.Takes last t r gs →
      ∀ u, ¬ v <+: f ⟨t, gs⟩ ++ u := by
    rintro v hv hvne last t r gs htakes u ⟨x, hx⟩
    obtain ⟨s, hs, y, hy⟩ := hf last t r gs htakes
    rw [← hy, List.append_assoc] at hx
    exact hw v hv hvne s hs x _ hx
  refine (cuts_pieces p s).exists_idle hne h ?_ ?_
  · intro w₁ w₂ hsplit _ hw₂ t r gs _ htakes
    exact hbar w₂ ⟨w₁, hsplit.symm⟩ hw₂ _ t r gs htakes
  · intro last t r gs ps hsuffix htakes hrest v hv hvne hw
    refine hinside last t r gs hsuffix htakes v hv hvne ?_
    rcases List.prefix_or_prefix_of_prefix hw (List.prefix_append v _) with hin | ⟨x, rfl⟩
    · exact hin.trans (List.prefix_append v r)
    · -- What follows of the word is the text's own, as no replaced text stands there.
      have hx := (List.prefix_append_right_inj v).mp hw
      refine (List.prefix_append_right_inj v).mpr (hrest.isPrefix_of_rewritten hx ?_)
      intro x₁ x₂ hx₁ hx₂ t' r' gs' _ htakes'
      refine hbar x₂ ?_ hx₂ _ t' r' gs' htakes'
      rw [hx₁, ← List.append_assoc]
      exact List.suffix_append _ _

/-- A word that begins with `head` begins inside no replaced text if these miss `head`. -/
theorem not_isPrefix_of_misses {w v r t : List Char} {head : String} (hhead : head.toList <+: w)
    (ht : Misses t [head]) (hv : v <:+ t) (hvne : v ≠ []) : ¬ w <+: v ++ r := by
  rintro ⟨x, hx⟩
  obtain ⟨y, rfl⟩ := hhead
  rw [List.append_assoc] at hx
  exact ht v hv hvne head (List.mem_singleton_self _) r _ hx.symm

/-- A pass makes no word that runs into no replaced text and begins in none. -/
theorem lacks_replace {s w : List Char} {heads : List String} {head : String}
    (hf : p.WritesFrom f heads) (hw : Misses w heads) (hhead : head.toList <+: w)
    (hinside : ∀ last t r gs, p.Takes last t r gs → Misses (f ⟨t, gs⟩) [head])
    (h : Lacks w s) : Lacks w (p.replace f s) := by
  intro hin
  obtain ⟨a, b, rfl, hb, -⟩ := exists_idle_of_infix_replace h.ne_nil hf hw
    (fun last t r gs _ htakes v => not_isPrefix_of_misses hhead (hinside last t r gs htakes)) hin
  exact h (hb.isInfix.trans (List.suffix_append a b).isInfix)

/-! ## Words that stay -/

/-- A word at the front of the text stays there if no match begins in it. -/
theorem Cuts.isPrefix_rewritten {s w : List Char} {ps : List Piece} {head : String}
    (h : p.Cuts last s ps) (hp : p.Begins head.toList) (hw : Misses w [head])
    (hfront : w <+: s) : w <+: ps.flatMap (Piece.replace f) := by
  induction h generalizing w with
  | nil => exact hfront
  | @plain last c s ps hidle hrest ih =>
    cases w with
    | nil => exact List.nil_prefix
    | cons d w =>
      obtain ⟨rfl, htail⟩ := List.cons_prefix_cons.mp hfront
      exact List.cons_prefix_cons.mpr
        ⟨rfl, ih (fun v hv => hw v (hv.trans (List.suffix_cons d w))) htail⟩
  | @hit last t r gs ps hne htakes hrest ih =>
    cases w with
    | nil => exact List.nil_prefix
    | cons d w =>
      obtain ⟨u, hu⟩ := hfront
      obtain ⟨y, rfl⟩ := hp last t r gs htakes
      rw [List.append_assoc] at hu
      exact absurd hu (hw _ (List.suffix_refl _) (by simp) head (List.mem_singleton_self _) _ _)

/-- A word stays if no match holds its first character and none begins in it. -/
theorem infix_replace_of_untouched {s w : List Char} {x : Char} {head : String}
    (hp : p.Begins head.toList) (hw : Misses (x :: w) [head])
    (hfirst : ∀ last t r gs, p.Takes last t r gs → x ∉ t) (h : x :: w <:+: s) :
    x :: w <:+: p.replace f s := by
  have hcuts := cuts_pieces p s
  rw [replace]
  generalize p.pieces s = ps at hcuts
  generalize none = last at hcuts
  induction hcuts with
  | nil => exact absurd (List.infix_nil.mp h) (by simp)
  | @plain last c s ps hidle hrest ih =>
    rcases List.infix_cons_iff.mp h with hfront | hlater
    · have hwhole : p.Cuts last (c :: s) (.plain c :: ps) := .plain hidle hrest
      exact (hwhole.isPrefix_rewritten hp hw hfront).isInfix
    · exact (ih hlater).trans (List.suffix_cons c _).isInfix
  | @hit last t r gs ps hne htakes hrest ih =>
    have hlater : x :: w <:+: r := by
      rcases List.infix_append_iff.mp h with hin | hlater | ⟨l₁, l₂, hsplit, hl₁, hl₂⟩
      · exact absurd (hin.subset List.mem_cons_self) (hfirst last t r gs htakes)
      · exact hlater
      · -- The part in the match would begin with the word's first character.
        cases l₁ with
        | nil => exact hsplit ▸ hl₂.isInfix
        | cons d l₁ =>
          obtain ⟨rfl, -⟩ := List.cons.inj hsplit
          exact absurd (hl₁.subset List.mem_cons_self) (hfirst last t r gs htakes)
    rw [List.flatMap_cons]
    exact (ih hlater).trans (List.suffix_append _ _).isInfix

end LivePreview.Pattern
