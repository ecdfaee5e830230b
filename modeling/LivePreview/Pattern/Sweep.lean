/-
  LivePreview.Pattern.Sweep

  The matches of a pattern at all places of a text at once.  From the answers of
  what follows the pattern, one for each place, `sweep` computes the answers of
  the pattern followed by it, from the end of the text to its beginning.  The time
  is proportional to the length of the text, however many outcomes there are.

  `sweep_eq_map_answer` says that each answer is that of the first outcome for
  which there is one, and `map_allMatchTexts` that the matches found this way are
  those of `matchAt?`.
-/

import LivePreview.Pattern.Outcomes

namespace LivePreview.Pattern

/-! ## Places of a text -/

/-- The places of a text, from the first to the last. -/
def places : Option Char → List Char → List Place
  | last, [] => [⟨last, []⟩]
  | last, c :: cs => ⟨last, c :: cs⟩ :: places (some c) cs

/-- A place with the number of characters before it. -/
abbrev Position : Type := Place × Nat

/-- The places of a text with their numbers, beginning with `i`. -/
def positions (last : Option Char) (i : Nat) (s : List Char) : List Position :=
  (places last s).zipIdx i

theorem positions_nil (last : Option Char) (i : Nat) :
    positions last i [] = [(⟨last, []⟩, i)] := rfl

theorem positions_cons (last : Option Char) (i : Nat) (c : Char) (cs : List Char) :
    positions last i (c :: cs) = (⟨last, c :: cs⟩, i) :: positions (some c) (i + 1) cs := rfl

theorem head?_positions (last : Option Char) (i : Nat) (s : List Char) :
    (positions last i s).head? = some (⟨last, s⟩, i) := by
  cases s <;> rfl

/-! ## The sweep -/

section Sweep

variable {β : Type}

/-- The answers at a run of a class.  `choose` is given the answer of going on with
    the run and that of ending it. -/
def sweepRun (cls : Char → Bool) (choose : Option β → Option β → Option β) :
    List Position → List (Option β) → List (Option β)
  | x :: xs, k :: ks =>
    let answers := sweepRun cls choose xs ks
    (if x.1.begins cls then choose (answers.headD none) k else k) :: answers
  | _, _ => []

/-- The answers of what follows, where a test holds. -/
def sweepTest (test : Place → Bool) : List Position → List (Option β) → List (Option β)
  | x :: xs, k :: ks => (if test x.1 then k else none) :: sweepTest test xs ks
  | _, _ => []

/-- The answers of what follows, with the number of the place. -/
def withIndex (xs : List Position) (next : List (Option β)) : List (Option (Nat × β)) :=
  List.zipWith (fun x k => k.map (x.2, ·)) xs next

/-- Adds the text from here to the place with that number. -/
def addText (add : Thunk (List Char) → β → β) (x : Position) (stop : Nat × β) : β :=
  add (.mk fun _ => x.1.rest.take (stop.1 - x.2)) stop.2

end Sweep

/-- The answers of a pattern and of what follows it, at the given places.  `add`
    puts the text of a group into an answer; the text is computed only when it is
    asked for. -/
def sweep (xs : List Position) :
    Pattern → {β : Type} → (Thunk (List Char) → β → β) → List (Option β) → List (Option β)
  | nothing, _, _, next => next
  | one cls, _, _, next => sweepTest (·.begins cls) xs (next.tail ++ [none])
  | many cls, _, _, next => sweepRun cls (fun go stop => go.or stop) xs next
  | few cls, _, _, next => sweepRun cls (fun go stop => stop.or go) xs next
  | seq p q, _, add, next => sweep xs p add (sweep xs q add next)
  | either p q, _, add, next => List.zipWith Option.or (sweep xs p add next) (sweep xs q add next)
  | group p, _, add, next =>
    List.zipWith (fun x r => r.map (addText add x)) xs
      (sweep xs p (fun t r => (r.1, add t r.2)) (withIndex xs next))
  | wordBoundary, _, _, next => sweepTest Place.atWordBoundary xs next
  | lineStart, _, _, next => sweepTest Place.atLineStart xs next

/-! ## What the answers are -/

section Answer

variable {β : Type} (add : Thunk (List Char) → β → β) (next : Position → Option β)

/-- The answer of an outcome: that of what follows it, with the texts of its groups. -/
def outcomeAnswer (x : Position) (y : Outcome) : Option β :=
  (next (y.stop, x.2 + y.text.length)).map fun b => y.groups.foldr (fun t => add (.pure t)) b

/-- The answer of the first outcome for which there is one. -/
def answer (p : Pattern) (x : Position) : Option β :=
  (p.outcomes x.1).findSome? (outcomeAnswer add next x)

theorem outcomeAnswer_here (x : Position) : outcomeAnswer add next x (.here x.1) = next x := by
  simp [outcomeAnswer, Outcome.here]

theorem answer_seq (p q : Pattern) :
    answer add next (seq p q) = answer add (answer add next q) p := by
  funext x
  rw [answer, outcomes, answer]
  induction p.outcomes x.1 with
  | nil => rfl
  | cons y ys ih =>
    have hy : outcomeAnswer add (answer add next q) x y =
        ((q.outcomes y.stop).map y.append).findSome? (outcomeAnswer add next x) := by
      rw [outcomeAnswer, answer, List.findSome?_map, List.map_findSome?]
      congr 1
      funext z
      simp [outcomeAnswer, Outcome.append, Option.map_map, Function.comp_def, List.foldr_append,
        Nat.add_assoc]
    rw [List.flatMap_cons, List.findSome?_append, ih, List.findSome?_cons, hy]
    cases ((q.outcomes y.stop).map y.append).findSome? (outcomeAnswer add next x) <;> rfl

theorem answer_either (p q : Pattern) (x : Position) :
    answer add next (either p q) x = (answer add next p x).or (answer add next q x) := by
  simp [answer, outcomes, List.findSome?_append]

theorem answer_of_outcomes_eq_ite {p : Pattern} {test : Place → Bool} {x : Position}
    (h : p.outcomes x.1 = if test x.1 then [.here x.1] else []) :
    answer add next p x = if test x.1 then next x else none := by
  rw [answer, h]
  split <;> simp [outcomeAnswer_here]

theorem outcomeAnswer_cons (last : Option Char) (c : Char) (cs : List Char) (i : Nat)
    (y : Outcome) :
    outcomeAnswer add next (⟨last, c :: cs⟩, i) (y.cons c) =
      outcomeAnswer add next (⟨some c, cs⟩, i + 1) y := by
  simp [outcomeAnswer, Outcome.cons, Nat.add_assoc, Nat.add_comm 1]

theorem answer_one_nil (cls : Char → Bool) (last : Option Char) (i : Nat) :
    answer add next (one cls) (⟨last, []⟩, i) = none := rfl

theorem answer_one_cons (cls : Char → Bool) (last : Option Char) (c : Char) (cs : List Char)
    (i : Nat) :
    answer add next (one cls) (⟨last, c :: cs⟩, i) =
      if cls c then next (⟨some c, cs⟩, i + 1) else none := by
  rw [answer, outcomes]
  by_cases h : cls c = true <;> simp [h, outcomeAnswer]

theorem answer_many_nil (cls : Char → Bool) (last : Option Char) (i : Nat) :
    answer add next (many cls) (⟨last, []⟩, i) = next (⟨last, []⟩, i) := by
  rw [answer, outcomes, manyOutcomes, List.findSome?_singleton]
  exact outcomeAnswer_here add next (⟨last, []⟩, i)

theorem answer_many_cons (cls : Char → Bool) (last : Option Char) (c : Char) (cs : List Char)
    (i : Nat) :
    answer add next (many cls) (⟨last, c :: cs⟩, i) =
      if cls c then
        (answer add next (many cls) (⟨some c, cs⟩, i + 1)).or (next (⟨last, c :: cs⟩, i))
      else next (⟨last, c :: cs⟩, i) := by
  have h := outcomeAnswer_here add next (⟨last, c :: cs⟩, i)
  rw [answer, outcomes, manyOutcomes]
  split
  · rw [List.findSome?_append, List.findSome?_map, List.findSome?_singleton, h]
    congr 2
    funext y
    exact outcomeAnswer_cons add next last c cs i y
  · rw [List.findSome?_singleton, h]

theorem answer_few_nil (cls : Char → Bool) (last : Option Char) (i : Nat) :
    answer add next (few cls) (⟨last, []⟩, i) = next (⟨last, []⟩, i) := by
  rw [answer, outcomes, fewOutcomes, List.findSome?_singleton]
  exact outcomeAnswer_here add next (⟨last, []⟩, i)

theorem answer_few_cons (cls : Char → Bool) (last : Option Char) (c : Char) (cs : List Char)
    (i : Nat) :
    answer add next (few cls) (⟨last, c :: cs⟩, i) =
      if cls c then
        (next (⟨last, c :: cs⟩, i)).or (answer add next (few cls) (⟨some c, cs⟩, i + 1))
      else next (⟨last, c :: cs⟩, i) := by
  have h := outcomeAnswer_here add next (⟨last, c :: cs⟩, i)
  rw [answer, outcomes, fewOutcomes, List.findSome?_cons, h]
  split
  · next b hb => split <;> simp [hb]
  · next hn =>
    split
    · rw [List.findSome?_map, hn, Option.none_or]
      congr 1
      funext y
      exact outcomeAnswer_cons add next last c cs i y
    · simp [hn]

theorem findSome?_congr {α : Type} {f g : α → Option β} {l : List α} (h : ∀ a ∈ l, f a = g a) :
    l.findSome? f = l.findSome? g := by
  induction l with
  | nil => rfl
  | cons a l ih =>
    rw [List.findSome?_cons, List.findSome?_cons, h a List.mem_cons_self,
      ih fun b hb => h b (List.mem_cons_of_mem a hb)]

/-- The answers of a group come from those of its body for which the numbers of the
    places behind it are kept. -/
theorem answer_group (p : Pattern) (x : Position) :
    answer add next (group p) x =
      (answer (fun t r => (r.1, add t r.2)) (fun y => (next y).map (y.2, ·)) p x).map
        (addText add x) := by
  rw [answer, outcomes, List.findSome?_map, answer, List.map_findSome?]
  refine findSome?_congr fun y hy => ?_
  have htake : x.1.rest.take y.text.length = y.text := by
    rw [← text_append_rest_of_mem_outcomes hy, List.take_left]
  have hfold : ∀ (ts : List (List Char)) (j : Nat) (b : β),
      ts.foldr (fun t r => ((r.1, add (.pure t) r.2) : Nat × β)) (j, b) =
        (j, ts.foldr (fun t => add (.pure t)) b) := by
    intro ts j b
    induction ts with
    | nil => rfl
    | cons t ts ih => rw [List.foldr_cons, ih, List.foldr_cons]
  simp only [Function.comp_def, outcomeAnswer, Outcome.keep, Option.map_map, hfold, addText,
    Nat.add_sub_cancel_left, htake, List.foldr_cons]
  rfl

end Answer

/-! ## The sweep gives the answers -/

section SweepAnswer

variable {β : Type}

theorem sweepTest_map (test : Place → Bool) (xs : List Position) (next : Position → Option β) :
    sweepTest test xs (xs.map next) = xs.map fun x => if test x.1 then next x else none := by
  induction xs with
  | nil => rfl
  | cons x xs ih => rw [List.map_cons, sweepTest, ih, List.map_cons]

theorem withIndex_map (xs : List Position) (next : Position → Option β) :
    withIndex xs (xs.map next) = xs.map fun x => (next x).map (x.2, ·) := by
  rw [withIndex, List.zipWith_map_right, List.zipWith_self]

variable (add : Thunk (List Char) → β → β) (next : Position → Option β)

theorem sweepTest_one (cls : Char → Bool) (last : Option Char) (i : Nat) (s : List Char) :
    sweepTest (·.begins cls) (positions last i s)
        (((positions last i s).map next).tail ++ [none]) =
      (positions last i s).map (answer add next (one cls)) := by
  induction s generalizing last i with
  | nil => simp [positions_nil, sweepTest, Place.begins, answer_one_nil]
  | cons c cs ih =>
    have ih := ih (some c) (i + 1)
    have hhead := head?_positions (some c) (i + 1) cs
    rw [positions_cons, List.map_cons, List.tail_cons, List.map_cons, ← ih, answer_one_cons]
    generalize positions (some c) (i + 1) cs = xs at hhead
    obtain ⟨xs, rfl⟩ := List.head?_eq_some_iff.mp hhead
    by_cases hc : cls c = true <;> simp [sweepTest, Place.begins, hc]

theorem sweepRun_cons (cls : Char → Bool) (choose : Option β → Option β → Option β)
    (x : Position) (xs : List Position) (k : Option β) (ks : List (Option β)) :
    sweepRun cls choose (x :: xs) (k :: ks) =
      (if x.1.begins cls then choose ((sweepRun cls choose xs ks).headD none) k else k) ::
        sweepRun cls choose xs ks := rfl

/-- A run gives the answers that meet the same equations from the end of the text. -/
theorem sweepRun_map {cls : Char → Bool} {choose : Option β → Option β → Option β}
    {answers : Position → Option β}
    (hnil : ∀ last i, answers (⟨last, []⟩, i) = next (⟨last, []⟩, i))
    (hcons : ∀ last c cs i, answers (⟨last, c :: cs⟩, i) =
      if cls c then choose (answers (⟨some c, cs⟩, i + 1)) (next (⟨last, c :: cs⟩, i))
      else next (⟨last, c :: cs⟩, i))
    (last : Option Char) (i : Nat) (s : List Char) :
    sweepRun cls choose (positions last i s) ((positions last i s).map next) =
      (positions last i s).map answers := by
  induction s generalizing last i with
  | nil => simp [positions_nil, sweepRun, Place.begins, hnil]
  | cons c cs ih =>
    have hhead := head?_positions (some c) (i + 1) cs
    rw [positions_cons, List.map_cons, List.map_cons, sweepRun_cons, ih, hcons]
    generalize positions (some c) (i + 1) cs = xs at hhead
    obtain ⟨xs, rfl⟩ := List.head?_eq_some_iff.mp hhead
    simp [Place.begins]

/-- The sweep gives at each place the answer of the first outcome that has one. -/
theorem sweep_eq_map_answer (p : Pattern) (last : Option Char) (i : Nat) (s : List Char) :
    sweep (positions last i s) p add ((positions last i s).map next) =
      (positions last i s).map (answer add next p) := by
  -- The answers stay general: `seq` takes those of its second part for its first one.
  induction p generalizing β with
  | nothing =>
    refine List.map_congr_left fun x _ => ?_
    simp [answer, outcomes, outcomeAnswer_here]
  | one cls => exact sweepTest_one add next cls last i s
  | many cls =>
    exact sweepRun_map next (answer_many_nil add next cls) (answer_many_cons add next cls) last i s
  | few cls =>
    exact sweepRun_map next (answer_few_nil add next cls) (answer_few_cons add next cls) last i s
  | seq p q ihp ihq => rw [sweep, ihq, ihp, answer_seq]
  | either p q ihp ihq =>
    rw [sweep, ihp, ihq, List.zipWith_map, List.zipWith_self]
    exact List.map_congr_left fun x _ => (answer_either add next p q x).symm
  | group p ih =>
    rw [sweep, withIndex_map, ih, List.zipWith_map_right, List.zipWith_self]
    exact List.map_congr_left fun x _ => (answer_group add next p x).symm
  | wordBoundary =>
    rw [sweep, sweepTest_map]
    exact List.map_congr_left fun x _ => (answer_of_outcomes_eq_ite add next rfl).symm
  | lineStart =>
    rw [sweep, sweepTest_map]
    exact List.map_congr_left fun x _ => (answer_of_outcomes_eq_ite add next rfl).symm

end SweepAnswer

/-! ## All matches -/

/-- The texts of a match, not computed yet: its own and those of its groups. -/
abbrev MatchTexts : Type := List (Thunk (List Char))

/-- A match from its texts. -/
def Match.ofTexts : MatchTexts → Match
  | [] => ⟨[], []⟩
  | text :: groups => ⟨text.get, groups.map Thunk.get⟩

/-- The texts of the matches at all places of a text. -/
def allMatchTexts (p : Pattern) (last : Option Char) (s : List Char) : List (Option MatchTexts) :=
  let xs := positions last 0 s
  sweep xs (group p) List.cons (xs.map fun _ => some [])

/-- The texts found at the places are those of the matches there. -/
theorem map_allMatchTexts (p : Pattern) (last : Option Char) (s : List Char) :
    (p.allMatchTexts last s).map (Option.map Match.ofTexts) =
      (places last s).map fun x => p.matchAt? x.last x.rest := by
  rw [allMatchTexts, sweep_eq_map_answer, List.map_map]
  have hplaces : places last s = (positions last 0 s).map Prod.fst := by simp [positions]
  rw [hplaces, List.map_map]
  refine List.map_congr_left fun x _ => ?_
  have hget : ∀ t : List Char, (Thunk.pure t).get = t := fun _ => rfl
  simp only [Function.comp_apply, answer, outcomes, matchAt?]
  cases p.outcomes x.1 with
  | nil => rfl
  | cons y ys => simp [outcomeAnswer, Outcome.keep, Match.ofTexts, Function.comp_def, hget]

end LivePreview.Pattern
