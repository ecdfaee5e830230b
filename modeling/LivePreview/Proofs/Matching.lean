/-
  LivePreview.Proofs.Matching

  How to tell what a pattern matches without running it.

  `Takes` says which texts a pattern can match at a place; it is the pattern read
  as a description, with the order of its alternatives forgotten, and
  `mem_outcomes_iff` ties it to the list of outcomes.  A pattern that takes nothing
  at a place has no match there (`Fails`).

  `Prefers` says which text is matched.  It is built up part by part
  (`Prefers.seq`, `Prefers.either_left`, `prefers_many` ..) where each part goes on
  from the preferred outcome of the part before it; where parts have to give way to
  each other, `prefers_of_unique` leaves the order aside because only one text can be
  taken at all.
-/

import LivePreview.Pattern.Replace

namespace LivePreview.Pattern

/-! ## The character before a place -/

/-- The character before the place behind a text. -/
def lastAfter (last : Option Char) (t : List Char) : Option Char := t.getLast?.or last

@[simp] theorem lastAfter_nil (last : Option Char) : lastAfter last [] = last := rfl

@[simp] theorem lastAfter_cons (last : Option Char) (c : Char) (t : List Char) :
    lastAfter last (c :: t) = lastAfter (some c) t := by
  rw [lastAfter, lastAfter, List.getLast?_cons, Option.some_or]
  cases t.getLast? <;> rfl

@[simp] theorem lastAfter_append (last : Option Char) (t u : List Char) :
    lastAfter last (t ++ u) = lastAfter (lastAfter last t) u := by
  rw [lastAfter, lastAfter, lastAfter, List.getLast?_append, Option.or_assoc]

/-! ## What a pattern can take -/

/-- The pattern can match the text `t` between the character `last` and the text `r`, with
    the texts `gs` kept by its groups. -/
def Takes : Pattern → Option Char → List Char → List Char → List (List Char) → Prop
  | nothing, _, t, _, gs => t = [] ∧ gs = []
  | one cls, _, t, _, gs => (∃ c, t = [c] ∧ cls c = true) ∧ gs = []
  | many cls, _, t, _, gs => (∀ c ∈ t, cls c = true) ∧ gs = []
  | few cls, _, t, _, gs => (∀ c ∈ t, cls c = true) ∧ gs = []
  | seq p q, last, t, r, gs => ∃ t₁ t₂ gs₁ gs₂, t = t₁ ++ t₂ ∧ gs = gs₁ ++ gs₂ ∧
      p.Takes last t₁ (t₂ ++ r) gs₁ ∧ q.Takes (lastAfter last t₁) t₂ r gs₂
  | either p q, last, t, r, gs => p.Takes last t r gs ∨ q.Takes last t r gs
  | group p, last, t, r, gs => ∃ hs, gs = t :: hs ∧ p.Takes last t r hs
  | wordBoundary, last, t, r, gs =>
      t = [] ∧ gs = [] ∧ Text.isWordBoundary last r.head? = true
  | lineStart, last, t, r, gs => t = [] ∧ gs = [] ∧ (Place.mk last r).atLineStart = true

/-- The outcome of matching a text. -/
def Outcome.of (last : Option Char) (t r : List Char) (gs : List (List Char)) : Outcome :=
  ⟨t, ⟨lastAfter last t, r⟩, gs⟩

theorem here_eq_of (last : Option Char) (s : List Char) :
    Outcome.here ⟨last, s⟩ = .of last [] s [] := rfl

theorem cons_of (last : Option Char) (c : Char) (t r : List Char) (gs : List (List Char)) :
    (Outcome.of (some c) t r gs).cons c = .of last (c :: t) r gs := by
  simp [Outcome.cons, Outcome.of]

theorem append_of (last : Option Char) (t u r r' : List Char) (gs hs : List (List Char)) :
    (Outcome.of last t r' gs).append (.of (lastAfter last t) u r hs) =
      .of last (t ++ u) r (gs ++ hs) := by
  simp [Outcome.append, Outcome.of]

theorem mem_manyOutcomes_iff {cls : Char → Bool} {last : Option Char} {s : List Char}
    {y : Outcome} : y ∈ manyOutcomes cls last s ↔
      ∃ t r, s = t ++ r ∧ (∀ c ∈ t, cls c = true) ∧ y = .of last t r [] := by
  -- By induction on the text; a run goes on from each of its characters.
  induction s generalizing last y with
  | nil =>
    simp only [manyOutcomes, List.mem_singleton, here_eq_of]
    constructor
    · rintro rfl
      exact ⟨[], [], rfl, by simp, rfl⟩
    · rintro ⟨t, r, hs, -, rfl⟩
      obtain ⟨rfl, rfl⟩ := List.nil_eq_append_iff.mp hs
      rfl
  | cons c cs ih =>
    have hhere : y = .here ⟨last, c :: cs⟩ →
        ∃ t r, c :: cs = t ++ r ∧ (∀ d ∈ t, cls d = true) ∧ y = .of last t r [] :=
      fun h => ⟨[], c :: cs, rfl, by simp, h⟩
    rw [manyOutcomes]
    constructor
    · intro h
      split at h
      · next hc =>
        rcases List.mem_append.mp h with h | h
        · obtain ⟨z, hz, rfl⟩ := List.mem_map.mp h
          obtain ⟨t, r, rfl, ht, rfl⟩ := ih.mp hz
          exact ⟨c :: t, r, rfl, by simpa [hc] using ht, cons_of last c t r []⟩
        · exact hhere (List.mem_singleton.mp h)
      · exact hhere (List.mem_singleton.mp h)
    · rintro ⟨t, r, hs, ht, rfl⟩
      cases t with
      | nil =>
        -- The empty run comes last.
        obtain rfl : r = c :: cs := hs.symm
        split <;> simp [here_eq_of]
      | cons d t =>
        obtain ⟨rfl, rfl⟩ : c = d ∧ cs = t ++ r := by simpa using hs
        rw [List.forall_mem_cons] at ht
        rw [if_pos ht.1, List.mem_append, List.mem_map]
        exact .inl ⟨.of (some c) t r [], ih.mpr ⟨t, r, rfl, ht.2, rfl⟩, cons_of last c t r []⟩

/-- The shortest-first run is the longest-first one backwards. -/
theorem fewOutcomes_eq_reverse (cls : Char → Bool) (last : Option Char) (s : List Char) :
    fewOutcomes cls last s = (manyOutcomes cls last s).reverse := by
  induction s generalizing last with
  | nil => rfl
  | cons c s ih =>
    rw [fewOutcomes, manyOutcomes, ih]
    split
    · simp
    · rfl

/-- The shortest-first run has the same outcomes as the longest-first one. -/
theorem mem_fewOutcomes_iff {cls : Char → Bool} {last : Option Char} {s : List Char}
    {y : Outcome} : y ∈ fewOutcomes cls last s ↔ y ∈ manyOutcomes cls last s := by
  rw [fewOutcomes_eq_reverse, List.mem_reverse]

/-- The runs of a class are the texts that `many` takes. -/
theorem mem_manyOutcomes_iff_takes {cls : Char → Bool} {last : Option Char} {s : List Char}
    {y : Outcome} : y ∈ manyOutcomes cls last s ↔
      ∃ t r gs, s = t ++ r ∧ (many cls).Takes last t r gs ∧ y = .of last t r gs := by
  rw [mem_manyOutcomes_iff]
  constructor
  · rintro ⟨t, r, hs, ht, rfl⟩
    exact ⟨t, r, [], hs, ⟨ht, rfl⟩, rfl⟩
  · rintro ⟨t, r, gs, hs, ⟨ht, rfl⟩, rfl⟩
    exact ⟨t, r, hs, ht, rfl⟩

/-- One character of a class is the first one of the text. -/
theorem mem_outcomes_one_iff {cls : Char → Bool} {last : Option Char} {s : List Char}
    {y : Outcome} : y ∈ (one cls).outcomes ⟨last, s⟩ ↔
      ∃ t r gs, s = t ++ r ∧ (one cls).Takes last t r gs ∧ y = .of last t r gs := by
  cases s with
  | nil =>
    simp only [outcomes, List.not_mem_nil, false_iff, Takes]
    rintro ⟨t, r, gs, hs, ⟨⟨c, rfl, -⟩, -⟩, -⟩
    cases hs
  | cons c cs =>
    simp only [outcomes, Takes]
    constructor
    · intro h
      split at h
      · next hc => exact ⟨[c], cs, [], rfl, ⟨⟨c, rfl, hc⟩, rfl⟩, List.mem_singleton.mp h⟩
      · cases h
    · rintro ⟨t, r, gs, hs, ⟨⟨d, rfl, hd⟩, rfl⟩, rfl⟩
      obtain ⟨rfl, rfl⟩ : c = d ∧ cs = r := by simpa using hs
      simp [hd, Outcome.of]

/-- A test that holds matches the empty text. -/
theorem mem_ite_here_iff (test : List Char → Bool) {last : Option Char} {s : List Char}
    {y : Outcome} : y ∈ (if test s then [Outcome.here ⟨last, s⟩] else []) ↔
      ∃ t r gs, s = t ++ r ∧ (t = [] ∧ gs = [] ∧ test r = true) ∧ y = .of last t r gs := by
  constructor
  · intro h
    split at h
    · next ht => exact ⟨[], s, [], rfl, ⟨rfl, rfl, ht⟩, List.mem_singleton.mp h⟩
    · cases h
  · rintro ⟨t, r, gs, rfl, ⟨rfl, rfl, ht⟩, rfl⟩
    rw [List.nil_append, if_pos ht]
    exact List.mem_singleton.mpr rfl

/-- The outcomes of a pattern are those of the texts that it takes. -/
theorem mem_outcomes_iff {p : Pattern} {last : Option Char} {s : List Char} {y : Outcome} :
    y ∈ p.outcomes ⟨last, s⟩ ↔
      ∃ t r gs, s = t ++ r ∧ p.Takes last t r gs ∧ y = .of last t r gs := by
  -- The place stays general, since `seq` goes on from a later one.
  induction p generalizing last s y with
  | nothing =>
    simp only [outcomes, List.mem_singleton, Takes]
    constructor
    · rintro rfl
      exact ⟨[], s, [], rfl, ⟨rfl, rfl⟩, rfl⟩
    · rintro ⟨t, r, gs, rfl, ⟨rfl, rfl⟩, rfl⟩
      rfl
  | one cls => exact mem_outcomes_one_iff
  | many cls => exact mem_manyOutcomes_iff_takes
  | few cls => exact mem_fewOutcomes_iff.trans mem_manyOutcomes_iff_takes
  | seq p q ihp ihq =>
    simp only [outcomes, List.mem_flatMap, List.mem_map, Takes]
    constructor
    · -- The second part is matched at the place behind the first one.
      rintro ⟨y, hy, z, hz, rfl⟩
      obtain ⟨t, r, gs, rfl, hp, rfl⟩ := (ihp (y := y)).mp hy
      obtain ⟨u, r, hs, rfl, hq, rfl⟩ := (ihq (y := z)).mp hz
      exact ⟨t ++ u, r, gs ++ hs, by simp, ⟨t, u, gs, hs, rfl, rfl, hp, hq⟩,
        append_of last t u r _ gs hs⟩
    · rintro ⟨tu, r, ghs, rfl, ⟨t, u, gs, hs, rfl, rfl, hp, hq⟩, rfl⟩
      refine ⟨.of last t (u ++ r) gs, ?_, .of (lastAfter last t) u r hs, ?_,
        append_of last t u r _ gs hs⟩
      · exact ihp.mpr ⟨t, u ++ r, gs, by simp, hp, rfl⟩
      · exact ihq.mpr ⟨u, r, hs, rfl, hq, rfl⟩
  | either p q ihp ihq =>
    simp only [outcomes, List.mem_append, ihp, ihq, Takes]
    constructor
    · rintro (⟨t, r, gs, hs, hp, rfl⟩ | ⟨t, r, gs, hs, hq, rfl⟩)
      · exact ⟨t, r, gs, hs, .inl hp, rfl⟩
      · exact ⟨t, r, gs, hs, .inr hq, rfl⟩
    · rintro ⟨t, r, gs, hs, hp | hq, rfl⟩
      · exact .inl ⟨t, r, gs, hs, hp, rfl⟩
      · exact .inr ⟨t, r, gs, hs, hq, rfl⟩
  | group p ih =>
    simp only [outcomes, List.mem_map, Takes]
    constructor
    · rintro ⟨z, hz, rfl⟩
      obtain ⟨t, r, gs, hs, hp, rfl⟩ := (ih (y := z)).mp hz
      exact ⟨t, r, t :: gs, hs, ⟨gs, rfl, hp⟩, rfl⟩
    · rintro ⟨t, r, gs, hs, ⟨gs, rfl, hp⟩, rfl⟩
      exact ⟨.of last t r gs, ih.mpr ⟨t, r, gs, hs, hp, rfl⟩, rfl⟩
  | wordBoundary => exact mem_ite_here_iff fun s => Text.isWordBoundary last s.head?
  | lineStart => exact mem_ite_here_iff fun s => (Place.mk last s).atLineStart

/-! ## What derived patterns can take -/

section Derived

variable {last : Option Char} {t r : List Char} {gs : List (List Char)}

@[simp] theorem takes_char {c : Char} : (char c).Takes last t r gs ↔ t = [c] ∧ gs = [] := by
  simp only [char, Takes, beq_iff_eq]
  constructor
  · rintro ⟨⟨d, rfl, rfl⟩, rfl⟩
    exact ⟨rfl, rfl⟩
  · rintro ⟨rfl, rfl⟩
    exact ⟨⟨c, rfl, rfl⟩, rfl⟩

@[simp] theorem takes_literal {s : String} :
    (literal s).Takes last t r gs ↔ t = s.toList ∧ gs = [] := by
  unfold literal
  generalize s.toList = cs
  induction cs generalizing last t gs with
  | nil => simp [Takes]
  | cons c cs ih =>
    rw [List.foldr_cons, append_eq, Takes]
    simp only [takes_char, ih]
    constructor
    · rintro ⟨t₁, t₂, gs₁, gs₂, rfl, rfl, ⟨rfl, rfl⟩, rfl, rfl⟩
      exact ⟨rfl, rfl⟩
    · rintro ⟨rfl, rfl⟩
      exact ⟨[c], cs, [], [], rfl, rfl, ⟨rfl, rfl⟩, rfl, rfl⟩

/-- A run of at least one character, whichever length is preferred. -/
theorem takes_one_seq_run {p : Pattern} {cls : Char → Bool} (hp : p = many cls ∨ p = few cls) :
    (seq (one cls) p).Takes last t r gs ↔ (t ≠ [] ∧ ∀ c ∈ t, cls c = true) ∧ gs = [] := by
  have hrun : ∀ last t r gs, p.Takes last t r gs ↔ (∀ c ∈ t, cls c = true) ∧ gs = [] := by
    rcases hp with rfl | rfl <;> exact fun _ _ _ _ => Iff.rfl
  simp only [Takes, hrun]
  constructor
  · rintro ⟨t₁, t₂, gs₁, gs₂, rfl, rfl, ⟨⟨c, rfl, hc⟩, rfl⟩, ht, rfl⟩
    exact ⟨⟨by simp, by simpa [hc] using ht⟩, rfl⟩
  · rintro ⟨⟨hne, ht⟩, rfl⟩
    obtain ⟨c, t, rfl⟩ := List.exists_cons_of_ne_nil hne
    rw [List.forall_mem_cons] at ht
    exact ⟨[c], t, [], [], rfl, rfl, ⟨⟨c, rfl, ht.1⟩, rfl⟩, ht.2, rfl⟩

@[simp] theorem takes_many1 {cls : Char → Bool} :
    (many1 cls).Takes last t r gs ↔ (t ≠ [] ∧ ∀ c ∈ t, cls c = true) ∧ gs = [] :=
  takes_one_seq_run (.inl rfl)

@[simp] theorem takes_few1 {cls : Char → Bool} :
    (few1 cls).Takes last t r gs ↔ (t ≠ [] ∧ ∀ c ∈ t, cls c = true) ∧ gs = [] :=
  takes_one_seq_run (.inr rfl)

@[simp] theorem takes_oneOf {ss : List String} :
    (oneOf ss).Takes last t r gs ↔ (∃ s ∈ ss, t = s.toList) ∧ gs = [] := by
  induction ss using oneOf.induct with
  | case1 => simp [oneOf, Takes]
  | case2 s => simp [oneOf]
  | case3 s rest hrest ih =>
    simp only [oneOf, or_eq, Takes, takes_literal, ih, List.mem_cons, exists_eq_or_imp]
    exact or_and_right.symm

end Derived

/-! ## Places without a match -/

/-- The text does not go on with a character of the class. -/
def Stops (cls : Char → Bool) (s : List Char) : Prop := ∀ c, s.head? = some c → cls c = false

@[simp] theorem stops_nil (cls : Char → Bool) : Stops cls [] := by
  intro c h
  cases h

@[simp] theorem stops_cons {cls : Char → Bool} {c : Char} {s : List Char} :
    Stops cls (c :: s) ↔ cls c = false := by
  simp [Stops]

theorem dropWhile_of_stops {cls : Char → Bool} {s : List Char} (h : Stops cls s) :
    s.dropWhile cls = s := by
  cases s with
  | nil => rfl
  | cons c s => exact List.dropWhile_cons_of_neg (by simp [stops_cons.mp h])

theorem dropWhile_run {cls : Char → Bool} {w s : List Char} (hw : ∀ c ∈ w, cls c = true)
    (hs : Stops cls s) : (w ++ s).dropWhile cls = s := by
  rw [List.dropWhile_append_of_pos hw, dropWhile_of_stops hs]

/-- A run that the text behind it does not prolong can be told from the text. -/
theorem run_unique {cls : Char → Bool} {w w' s s' : List Char} (h : w ++ s = w' ++ s')
    (hw : ∀ c ∈ w, cls c = true) (hw' : ∀ c ∈ w', cls c = true) (hs : Stops cls s)
    (hs' : Stops cls s') : w = w' ∧ s = s' := by
  -- Either run is what `takeWhile` takes of the text.
  have htake : ∀ {v u : List Char}, (∀ c ∈ v, cls c = true) → Stops cls u →
      (v ++ u).takeWhile cls = v := by
    intro v u hv hu
    rw [List.takeWhile_append_of_pos hv]
    cases u with
    | nil => simp
    | cons c u => simp [stops_cons.mp hu]
  have hrun : w = w' := by rw [← htake hw hs, h, htake hw' hs']
  subst hrun
  exact ⟨rfl, List.append_cancel_left h⟩

/-- The same of a run at the end of a text. -/
theorem run_unique_right {cls : Char → Bool} {w w' s s' : List Char} (h : s ++ w = s' ++ w')
    (hw : ∀ c ∈ w, cls c = true) (hw' : ∀ c ∈ w', cls c = true) (hs : Stops cls s.reverse)
    (hs' : Stops cls s'.reverse) : s = s' ∧ w = w' := by
  have hreverse : w.reverse ++ s.reverse = w'.reverse ++ s'.reverse := by
    rw [← List.reverse_append, h, List.reverse_append]
  obtain ⟨hrun, hrest⟩ := run_unique hreverse (fun c hc => hw c (List.mem_reverse.mp hc))
    (fun c hc => hw' c (List.mem_reverse.mp hc)) hs hs'
  exact ⟨List.reverse_inj.mp hrest, List.reverse_inj.mp hrun⟩

/-- The pattern matches nothing at the place. -/
def Fails (p : Pattern) (last : Option Char) (s : List Char) : Prop := p.outcomes ⟨last, s⟩ = []

theorem fails_iff {p : Pattern} {last : Option Char} {s : List Char} :
    p.Fails last s ↔ ∀ t r gs, s = t ++ r → ¬ p.Takes last t r gs := by
  rw [Fails, List.eq_nil_iff_forall_not_mem]
  constructor
  · intro h t r gs hs ht
    exact h _ (mem_outcomes_iff.mpr ⟨t, r, gs, hs, ht, rfl⟩)
  · intro h y hy
    obtain ⟨t, r, gs, hs, ht, -⟩ := mem_outcomes_iff.mp hy
    exact h t r gs hs ht

theorem matchAt?_eq_none {p : Pattern} {last : Option Char} {s : List Char}
    (h : p.Fails last s) : p.matchAt? last s = none := by
  rw [matchAt?, h]
  rfl

theorem Fails.seq {p : Pattern} {last : Option Char} {s : List Char} (h : p.Fails last s)
    (q : Pattern) : (p ++ q).Fails last s := by
  rw [Fails, append_eq, outcomes, h, List.flatMap_nil]

theorem fails_char {c d : Char} (h : d ≠ c) (last : Option Char) (s : List Char) :
    (char c).Fails last (d :: s) := by
  rw [fails_iff]
  intro t r gs heq htakes
  obtain ⟨rfl, -⟩ := takes_char.mp htakes
  exact h (List.cons.inj heq).1

theorem fails_literal {s : String} {c : Char} (h : s.toList.head?.any (· != c) = true)
    (last : Option Char) (r : List Char) : (literal s).Fails last (c :: r) := by
  rw [fails_iff]
  intro t r' gs heq htakes
  obtain ⟨rfl, -⟩ := takes_literal.mp htakes
  cases hs : s.toList with
  | nil => simp [hs] at h
  | cons d ds =>
    rw [hs] at heq h
    have hne : d ≠ c := by simpa using h
    exact hne (List.cons.inj heq).1.symm

/-! ## The preferred match -/

/-- The pattern matches the text `t` at the place before `t ++ r`. -/
def Prefers (p : Pattern) (last : Option Char) (t r : List Char) (gs : List (List Char)) : Prop :=
  (p.outcomes ⟨last, t ++ r⟩).head? = some (.of last t r gs)

section Prefers

variable {p q : Pattern} {last : Option Char} {t u r : List Char} {gs hs : List (List Char)}

theorem Prefers.matchAt?_eq (h : p.Prefers last t r gs) :
    p.matchAt? last (t ++ r) = some ⟨t, gs⟩ := by
  rw [matchAt?, h]
  rfl

/-- What can be taken in one way only is matched. -/
theorem prefers_of_unique (h : p.Takes last t r gs)
    (hu : ∀ t' r' gs', t ++ r = t' ++ r' → p.Takes last t' r' gs' → t' = t ∧ gs' = gs) :
    p.Prefers last t r gs := by
  have hmem := mem_outcomes_iff.mpr ⟨t, r, gs, rfl, h, rfl⟩
  unfold Prefers
  cases hall : p.outcomes ⟨last, t ++ r⟩ with
  | nil => simp [hall] at hmem
  | cons y ys =>
    have hy : y ∈ p.outcomes ⟨last, t ++ r⟩ := hall ▸ List.mem_cons_self
    -- The first outcome is one of the texts that can be taken, and there is only one.
    obtain ⟨t', r', gs', hs, ht, rfl⟩ := mem_outcomes_iff.mp hy
    obtain ⟨rfl, rfl⟩ := hu t' r' gs' hs ht
    rw [List.append_cancel_left hs]
    rfl

theorem prefers_nothing (last : Option Char) (r : List Char) : nothing.Prefers last [] r [] := rfl

theorem Prefers.seq (hp : p.Prefers last t (u ++ r) gs)
    (hq : q.Prefers (lastAfter last t) u r hs) :
    (p ++ q).Prefers last (t ++ u) r (gs ++ hs) := by
  -- The first outcome of the whole is the first one of `q` behind the first one of `p`.
  obtain ⟨ys, hys⟩ := List.head?_eq_some_iff.mp hp
  obtain ⟨zs, hzs⟩ := List.head?_eq_some_iff.mp hq
  rw [Prefers, List.append_assoc, append_eq, outcomes, hys, List.flatMap_cons, List.head?_append,
    Outcome.of, hzs]
  exact congrArg some (append_of last t u r _ gs hs)

/-- A pattern that matches the empty text adds nothing. -/
theorem Prefers.seq_nothing (hp : p.Prefers last t r gs)
    (hq : q.Prefers (lastAfter last t) [] r []) : (p ++ q).Prefers last t r gs := by
  have h := hp.seq (u := []) hq
  rwa [List.append_nil, List.append_nil] at h

theorem Prefers.either_left (h : p.Prefers last t r gs) : (p ||| q).Prefers last t r gs := by
  rw [Prefers, or_eq, outcomes, List.head?_append, h]
  rfl

theorem Prefers.either_right (hp : p.Fails last (t ++ r)) (h : q.Prefers last t r gs) :
    (p ||| q).Prefers last t r gs := by
  rw [Prefers, or_eq, outcomes, hp, List.nil_append]
  exact h

/-- If the preferred pattern cannot be followed, the other one is. -/
theorem Prefers.either_seq_right (hp : (p ++ q).Fails last (t ++ r)) {p' : Pattern}
    (h : (p' ++ q).Prefers last t r gs) : ((p ||| p') ++ q).Prefers last t r gs := by
  -- The outcomes of the first alternative come first, and none of them can be followed.
  rw [Prefers, append_eq, or_eq, outcomes, outcomes, List.flatMap_append, ← outcomes, ← append_eq,
    hp, List.nil_append]
  exact h

/-- It does not matter how the parts are put together. -/
theorem outcomes_assoc (p q q' : Pattern) (x : Place) :
    (p ++ q ++ q').outcomes x = (p ++ (q ++ q')).outcomes x := by
  have happend : ∀ y z : Outcome, (y.append z).append = y.append ∘ z.append := by
    intro y z
    funext w
    simp [Outcome.append]
  simp only [append_eq, outcomes, List.flatMap_assoc, List.flatMap_map, List.map_flatMap,
    List.map_map, happend]
  rfl

theorem prefers_assoc {q' : Pattern} :
    (p ++ q ++ q').Prefers last t r gs ↔ (p ++ (q ++ q')).Prefers last t r gs := by
  rw [Prefers, Prefers, outcomes_assoc]

theorem Prefers.optional (h : p.Prefers last t r gs) : (optional p).Prefers last t r gs :=
  h.either_left

theorem prefers_optional_nothing (h : p.Fails last r) : (optional p).Prefers last [] r [] :=
  .either_right h (prefers_nothing last r)

theorem Prefers.group (h : p.Prefers last t r gs) : (group p).Prefers last t r (t :: gs) := by
  rw [Prefers, outcomes, List.head?_map, h]
  rfl

theorem prefers_one {cls : Char → Bool} {c : Char} (hc : cls c = true) :
    (one cls).Prefers last [c] r [] := by
  simp [Prefers, outcomes, hc, Outcome.of]

theorem prefers_many {cls : Char → Bool} (ht : ∀ c ∈ t, cls c = true) (hr : Stops cls r) :
    (many cls).Prefers last t r [] := by
  have hrun : (manyOutcomes cls last (t ++ r)).head? = some (.of last t r []) := by
    induction t generalizing last with
    | nil =>
      -- Nothing of the class is left, so the empty run is the only one.
      cases r with
      | nil => rfl
      | cons c r => simp [manyOutcomes, stops_cons.mp hr, here_eq_of]
    | cons c t ih =>
      -- The longest run is the first, and it begins with `c`.
      rw [List.forall_mem_cons] at ht
      rw [List.cons_append, manyOutcomes, if_pos ht.1, List.head?_append, List.head?_map,
        ih ht.2, Option.map_some, Option.some_or, cons_of]
  exact hrun

theorem prefers_many1 {cls : Char → Bool} (hne : t ≠ []) (ht : ∀ c ∈ t, cls c = true)
    (hr : Stops cls r) : (many1 cls).Prefers last t r [] := by
  obtain ⟨c, t, rfl⟩ := List.exists_cons_of_ne_nil hne
  rw [List.forall_mem_cons] at ht
  exact (prefers_one ht.1).seq (prefers_many ht.2 hr)

theorem prefers_literal (s : String) (last : Option Char) (r : List Char) :
    (literal s).Prefers last s.toList r [] := by
  refine prefers_of_unique (takes_literal.mpr ⟨rfl, rfl⟩) ?_
  intro t' r' gs' _ h
  exact takes_literal.mp h

/-- No text of a list begins another one. -/
def PrefixFree (ss : List String) : Prop :=
  ∀ s ∈ ss, ∀ s' ∈ ss, s.toList <+: s'.toList → s = s'

instance (ss : List String) : Decidable (PrefixFree ss) :=
  inferInstanceAs (Decidable (∀ s ∈ ss, ∀ s' ∈ ss, s.toList <+: s'.toList → s = s'))

theorem PrefixFree.eq_of_append_eq {ss : List String} (h : PrefixFree ss) {s s' : String}
    (hs : s ∈ ss) (hs' : s' ∈ ss) {u u' : List Char} (heq : s.toList ++ u = s'.toList ++ u') :
    s = s' := by
  -- Both begin the same text, so one of them begins the other.
  have hleft : s.toList <+: s'.toList ++ u' := heq ▸ List.prefix_append s.toList u
  rcases List.prefix_or_prefix_of_prefix hleft (List.prefix_append s'.toList u') with hp | hp
  · exact h s hs s' hs' hp
  · exact (h s' hs' s hs hp).symm

theorem prefers_oneOf {ss : List String} (hfree : PrefixFree ss) {s : String} (hs : s ∈ ss)
    (last : Option Char) (r : List Char) : (oneOf ss).Prefers last s.toList r [] := by
  refine prefers_of_unique (takes_oneOf.mpr ⟨⟨s, hs, rfl⟩, rfl⟩) ?_
  intro t' r' gs' heq htakes
  obtain ⟨⟨s', hs', rfl⟩, rfl⟩ := takes_oneOf.mp htakes
  rw [hfree.eq_of_append_eq hs hs' heq]
  exact ⟨rfl, rfl⟩

theorem prefers_char (c : Char) (last : Option Char) (r : List Char) :
    (char c).Prefers last [c] r [] := prefers_one (beq_self_eq_true c)

theorem prefers_wordBoundary (h : Text.isWordBoundary last r.head? = true) :
    wordBoundary.Prefers last [] r [] := by
  simp [Prefers, outcomes, Place.atWordBoundary, h, here_eq_of]

theorem prefers_lineStart (h : (Place.mk last r).atLineStart = true) :
    lineStart.Prefers last [] r [] := by
  simp [Prefers, outcomes, h, here_eq_of]

end Prefers

end LivePreview.Pattern
