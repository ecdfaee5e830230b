/-
  LivePreview.Proofs.EnclosedText

  What a pattern finds in a text that stands in the midst of another one.

  Behind a line feed, and before a text that goes on with no word, a text has the outcomes
  that it has alone, and besides them only outcomes that reach into what follows
  (`outcomes_enclose`).  Where there are none of these, it is read as it is read alone
  (`piecesAfter_enclose`).
-/

import LivePreview.Proofs.Reading
import Mathlib.Data.List.Basic

namespace LivePreview

namespace Pattern

variable {p : Pattern} {cls : Char → Bool} {tail : List Char}

/-! ## A text in the midst of another one -/

/-- The place in the text between a line feed and `tail`. -/
def Place.enclose (tail : List Char) (x : Place) : Place :=
  ⟨some (x.last.getD '\n'), x.rest ++ tail⟩

/-- The outcome in the text between a line feed and `tail`. -/
def Outcome.enclose (tail : List Char) (y : Outcome) : Outcome :=
  { y with stop := y.stop.enclose tail }

/-- The outcome does not reach into the last characters, as many as `tail` has. -/
def Outcome.leaves (tail : List Char) (y : Outcome) : Bool :=
  decide (tail.length ≤ y.stop.rest.length)

theorem leaves_iff {y : Outcome} :
    y.leaves tail = true ↔ tail.length ≤ y.stop.rest.length := decide_eq_true_iff

theorem leaves_enclose (tail : List Char) (y : Outcome) : (y.enclose tail).leaves tail = true := by
  simp [leaves_iff, Outcome.enclose, Place.enclose]

/-- What is matched behind an outcome that reaches too far reaches too far as well. -/
theorem filter_leaves_eq_nil {y : Outcome} (hy : y.leaves tail = false) (p : Pattern) :
    (p.outcomes y.stop).filter (·.leaves tail) = [] := by
  rw [List.filter_eq_nil_iff]
  intro z hz hleaves
  have hrest := congrArg List.length (text_append_rest_of_mem_outcomes hz)
  rw [List.length_append] at hrest
  rw [leaves_iff] at hleaves
  rw [Bool.eq_false_iff, ne_eq, leaves_iff] at hy
  omega

/-- A run that goes on in `tail` reaches too far. -/
theorem filter_leaves_map_cons_self {c : Char} {cs : List Char} {ys : List Outcome}
    (h : ∀ y ∈ ys, y.text ++ y.stop.rest = cs) :
    (ys.map (Outcome.cons c)).filter (·.leaves (c :: cs)) = [] := by
  rw [List.filter_eq_nil_iff]
  intro z hz hleaves
  obtain ⟨y, hy, rfl⟩ := List.mem_map.mp hz
  have hrest := congrArg List.length (h y hy)
  rw [leaves_iff, List.length_cons] at hleaves
  simp only [Outcome.cons, List.length_append] at hleaves hrest
  omega

/-- What is added to an outcome in front of it makes no difference. -/
theorem filter_leaves_map (f : Outcome → Outcome) (hf : ∀ y, (f y).stop = y.stop)
    (ys : List Outcome) :
    (ys.map f).filter (·.leaves tail) = (ys.filter (·.leaves tail)).map f := by
  rw [List.filter_map]
  refine congrArg _ (List.filter_congr fun y _ => ?_)
  rw [Function.comp_apply, Outcome.leaves, hf, Outcome.leaves]

theorem filter_leaves_here (last : Option Char) (tail : List Char) :
    [Outcome.here ⟨last, tail⟩].filter (·.leaves tail) = [.here ⟨last, tail⟩] :=
  List.filter_cons_of_pos (leaves_iff.mpr (Nat.le_refl _))

theorem filter_leaves_here_enclose (tail : List Char) (x : Place) :
    [Outcome.here (x.enclose tail)].filter (·.leaves tail) = [(Outcome.here x).enclose tail] :=
  List.filter_cons_of_pos (leaves_enclose tail (.here x))

theorem manyOutcomes_enclose (cls : Char → Bool) (tail : List Char) (last : Option Char)
    (s : List Char) :
    (manyOutcomes cls (some (last.getD '\n')) (s ++ tail)).filter (·.leaves tail) =
      (manyOutcomes cls last s).map (·.enclose tail) := by
  induction s generalizing last with
  | nil =>
    -- Of the runs in `tail` only the empty one is left.
    cases tail with
    | nil => exact filter_leaves_here _ []
    | cons c cs =>
      have hlonger : ((manyOutcomes cls (some c) cs).map (Outcome.cons c)).filter
          (·.leaves (c :: cs)) = [] :=
        filter_leaves_map_cons_self fun y hy => text_append_rest_of_mem_manyOutcomes hy
      rw [List.nil_append, manyOutcomes, manyOutcomes]
      split
      · rw [List.filter_append, hlonger]
        exact filter_leaves_here _ (c :: cs)
      · exact filter_leaves_here _ (c :: cs)
  | cons c s ih =>
    have hhere := filter_leaves_here_enclose tail ⟨last, c :: s⟩
    rw [List.cons_append, manyOutcomes, manyOutcomes]
    split
    · have hrun := ih (some c)
      rw [Option.getD_some] at hrun
      rw [List.filter_append, filter_leaves_map (.cons c) fun _ => rfl, hrun, List.map_append,
        List.map_map, List.map_map]
      exact congrArg _ hhere
    · exact hhere

theorem fewOutcomes_enclose (cls : Char → Bool) (tail : List Char) (last : Option Char)
    (s : List Char) :
    (fewOutcomes cls (some (last.getD '\n')) (s ++ tail)).filter (·.leaves tail) =
      (fewOutcomes cls last s).map (·.enclose tail) := by
  rw [fewOutcomes_eq_reverse, fewOutcomes_eq_reverse, List.filter_reverse, manyOutcomes_enclose,
    List.map_reverse]

theorem atWordBoundary_enclose (h : Stops Text.isWord tail) (x : Place) :
    (x.enclose tail).atWordBoundary = x.atWordBoundary := by
  have hline : Text.isWord '\n' = false := by decide
  have hbefore : (some (x.last.getD '\n')).any Text.isWord = x.last.any Text.isWord := by
    cases x.last <;> simp [hline]
  have hafter : (x.rest ++ tail).head?.any Text.isWord = x.rest.head?.any Text.isWord := by
    cases x.rest with
    | cons c s => rfl
    | nil =>
      cases tail with
      | nil => rfl
      | cons c s => simp [stops_cons.mp h]
  unfold Place.atWordBoundary Text.isWordBoundary
  rw [Place.enclose, hbefore, hafter]

theorem atLineStart_enclose (x : Place) : (x.enclose tail).atLineStart = x.atLineStart := by
  obtain ⟨last, s⟩ := x
  cases last <;> rfl

theorem flatMap_filter {α β : Type} {keep : α → Bool} {f : α → List β}
    (h : ∀ a, keep a = false → f a = []) (as : List α) :
    (as.filter keep).flatMap f = as.flatMap f := by
  induction as with
  | nil => rfl
  | cons a as ih =>
    cases ha : keep a with
    | true => rw [List.filter_cons_of_pos ha, List.flatMap_cons, List.flatMap_cons, ih]
    | false =>
      rw [List.filter_cons_of_neg (by simp [ha]), List.flatMap_cons, h a ha, List.nil_append, ih]

theorem outcomes_one_enclose (cls : Char → Bool) (tail : List Char) (x : Place) :
    ((one cls).outcomes (x.enclose tail)).filter (·.leaves tail) =
      ((one cls).outcomes x).map (·.enclose tail) := by
  obtain ⟨last, s⟩ := x
  cases s with
  | cons c s =>
    rw [Place.enclose, List.cons_append, outcomes, outcomes]
    dsimp only
    split
    · exact List.filter_cons_of_pos (leaves_enclose tail ⟨[c], ⟨some c, s⟩, []⟩)
    · rfl
  | nil =>
    -- The only character to take would be the first one of `tail`.
    cases tail with
    | nil => rfl
    | cons c cs =>
      rw [Place.enclose, List.nil_append, outcomes, outcomes]
      dsimp only
      split
      · exact List.filter_cons_of_neg (by simp [leaves_iff])
      · rfl

theorem outcomes_seq_enclose {p q : Pattern}
    (hp : ∀ x, (p.outcomes (x.enclose tail)).filter (·.leaves tail) =
      (p.outcomes x).map (·.enclose tail))
    (hq : ∀ x, (q.outcomes (x.enclose tail)).filter (·.leaves tail) =
      (q.outcomes x).map (·.enclose tail)) (x : Place) :
    ((seq p q).outcomes (x.enclose tail)).filter (·.leaves tail) =
      ((seq p q).outcomes x).map (·.enclose tail) := by
  have happend (y : Outcome) : ((q.outcomes y.stop).map y.append).filter (·.leaves tail) =
      ((q.outcomes y.stop).filter (·.leaves tail)).map y.append :=
    filter_leaves_map y.append (fun _ => rfl) _
  -- An outcome of the first part that reaches too far has none behind it that does not.
  have hfar (y : Outcome) (hy : y.leaves tail = false) :
      ((q.outcomes y.stop).filter (·.leaves tail)).map y.append = [] := by
    rw [filter_leaves_eq_nil hy q, List.map_nil]
  rw [outcomes, outcomes, List.filter_flatMap]
  simp only [happend]
  rw [← flatMap_filter hfar, hp, List.map_flatMap, List.flatMap_map]
  refine List.flatMap_congr fun y _ => ?_
  rw [Outcome.enclose, hq, List.map_map, List.map_map]
  rfl

/-- The outcomes that leave the text behind a place alone are those without that text, if no
    word goes on there. -/
theorem outcomes_enclose (h : Stops Text.isWord tail) (p : Pattern) (x : Place) :
    (p.outcomes (x.enclose tail)).filter (·.leaves tail) =
      (p.outcomes x).map (·.enclose tail) := by
  -- By induction on the pattern.  A part may well reach too far, as long as what is put
  -- together of it is left out; that is why the outcomes are filtered, and not bounded.
  induction p generalizing x with
  | nothing => exact filter_leaves_here_enclose tail x
  | one cls => exact outcomes_one_enclose cls tail x
  | many cls => exact manyOutcomes_enclose cls tail x.last x.rest
  | few cls => exact fewOutcomes_enclose cls tail x.last x.rest
  | seq p q ihp ihq => exact outcomes_seq_enclose ihp ihq x
  | either p q ihp ihq =>
    rw [outcomes, outcomes, List.filter_append, List.map_append, ihp, ihq]
  | group p ih =>
    rw [outcomes, outcomes, filter_leaves_map .keep fun _ => rfl, ih, List.map_map, List.map_map]
    rfl
  | wordBoundary =>
    rw [outcomes, outcomes, atWordBoundary_enclose h]
    split
    · exact filter_leaves_here_enclose tail x
    · rfl
  | lineStart =>
    rw [outcomes, outcomes, atLineStart_enclose]
    split
    · exact filter_leaves_here_enclose tail x
    · rfl

/-! ## Matches in the midst of another text -/

/-- No match reaches into the text, wherever before it the match begins. -/
def EndsBefore (p : Pattern) (tail : List Char) : Prop :=
  ∀ last s t r gs, s ++ tail = t ++ r → p.Takes last t r gs → tail.length ≤ r.length

theorem matchAt?_enclose (h : Stops Text.isWord tail) (hp : p.EndsBefore tail)
    (last : Option Char) (s : List Char) :
    p.matchAt? (some (last.getD '\n')) (s ++ tail) = p.matchAt? last s := by
  have hall : (p.outcomes (Place.enclose tail ⟨last, s⟩)).filter (·.leaves tail) =
      p.outcomes (Place.enclose tail ⟨last, s⟩) := by
    rw [List.filter_eq_self]
    intro y hy
    obtain ⟨t, r, gs, hs, htakes, rfl⟩ := mem_outcomes_iff.mp hy
    exact leaves_iff.mpr (hp _ _ _ _ _ hs htakes)
  rw [outcomes_enclose h] at hall
  show ((p.outcomes (Place.enclose tail ⟨last, s⟩)).head?.map fun y => Match.mk y.text y.groups) = _
  rw [← hall, List.head?_map, Option.map_map]
  rfl

/-- A text is read in the midst of another one as it is read alone if no match runs out of it. -/
theorem piecesAfter_enclose (h : Stops Text.isWord tail) (hp : p.EndsBefore tail)
    (last : Option Char) {skip : Nat} {s : List Char} (hskip : skip ≤ s.length) :
    p.piecesAfter (some (last.getD '\n')) skip (s ++ tail) =
      p.piecesAfter last skip s ++ p.piecesAfter (some ((lastAfter last s).getD '\n')) 0 tail := by
  induction s generalizing last skip with
  | nil =>
    obtain rfl : skip = 0 := Nat.le_zero.mp hskip
    rfl
  | cons c s ih =>
    have hrest {k : Nat} (hk : k ≤ s.length) :
        p.piecesAfter (some c) k (s ++ tail) = p.piecesAfter (some c) k s ++
          p.piecesAfter (some ((lastAfter last (c :: s)).getD '\n')) 0 tail := by
      rw [lastAfter_cons]
      exact ih (some c) hk
    cases skip with
    | succ skip => exact hrest (Nat.le_of_succ_le_succ hskip)
    | zero =>
      have hmatch := matchAt?_enclose h hp last (c :: s)
      rw [List.cons_append] at hmatch ⊢
      rw [piecesAfter, piecesAfter, hmatch]
      split
      · next d ds groups hfound =>
        -- What the match skips lies within the text.
        have hlength := (text_prefix_of_matchAt? hfound).length_le
        rw [hrest (Nat.le_of_succ_le_succ hlength), List.cons_append]
      · rw [hrest (Nat.zero_le _), List.cons_append]

end Pattern

end LivePreview
