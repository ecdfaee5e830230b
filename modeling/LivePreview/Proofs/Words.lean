/-
  LivePreview.Proofs.Words

  Words that do not occur in a text, and texts put together without making one.

  Where two parts meet at a character that is not in the word, the word does not stand
  across their joint (`Lacks.append`); fixed texts between others are such joints
  (`lacks_interleave`).  Where it cannot go on across the joint, its places in the whole
  are those in the parts (`occurrences_append`).  `Misses` says that no end of a word runs
  into any of some fixed texts, which is seen from their first characters
  (`misses_of_clash`).
-/

import Mathlib.Data.List.Infix

namespace LivePreview.Text

variable {w u v : List Char}

/-! ## Texts without a word -/

/-- The word does not occur in the text. -/
def Lacks (w s : List Char) : Prop := ¬ w <:+: s

instance (w s : List Char) : Decidable (Lacks w s) := inferInstanceAs (Decidable (¬ _))

/-- Every text holds the empty word. -/
theorem Lacks.ne_nil (h : Lacks w u) : w ≠ [] := by
  rintro rfl
  exact h List.nil_infix

theorem Lacks.mono (h : Lacks w u) (hv : v <:+: u) : Lacks w v := fun hw => h (hw.trans hv)

theorem Lacks.of_part {x : List Char} (h : Lacks x u) (hx : x <:+: w) : Lacks w u :=
  fun hw => h (hx.trans hw)

theorem lacks_of_not_mem {c : Char} (hc : c ∈ w) (hu : c ∉ u) : Lacks w u :=
  fun h => hu (h.subset hc)

/-- Parts that meet at a character that is not in the word. -/
theorem Lacks.append (hu : Lacks w u) (hv : Lacks w v)
    (hjoint : u.getLast?.any (· ∉ w) = true ∨ v.head?.any (· ∉ w) = true) :
    Lacks w (u ++ v) := by
  intro h
  rcases List.infix_append_iff.mp h with h | h | ⟨x, y, rfl, hx, hy⟩
  · exact hu h
  · exact hv h
  · -- One side of the joint would belong to the word.
    rcases List.eq_nil_or_concat x with rfl | ⟨x, c, rfl⟩
    · exact hv hy.isInfix
    cases y with
    | nil => exact hu (List.append_nil _ ▸ hx.isInfix)
    | cons d y =>
      obtain ⟨a, rfl⟩ := hx
      obtain ⟨b, rfl⟩ := hy
      rcases hjoint with hjoint | hjoint
      · simp [List.getLast?_append] at hjoint
      · simp at hjoint

/-- Parts on both sides of a character that is not in the word. -/
theorem Lacks.append_cons {d : Char} (hu : Lacks w u) (hd : d ∉ w) (hv : Lacks w v) :
    Lacks w (u ++ d :: v) := by
  have hsingle : Lacks w [d] := by
    intro h
    cases w with
    | nil => exact hu List.nil_infix
    | cons c w =>
      have hc : c = d := List.mem_singleton.mp (h.subset List.mem_cons_self)
      exact hd (hc ▸ List.mem_cons_self)
  have hrest : Lacks w ([d] ++ v) := hsingle.append hv (.inl (by simpa using hd))
  exact hu.append hrest (.inr (by simpa using hd))

/-- Parts that each begin with a character that is not in the word. -/
theorem Lacks.append_flatten {parts : List (List Char)} (hu : Lacks w u)
    (h : ∀ part ∈ parts, Lacks w part ∧ part.head?.any (· ∉ w) = true) :
    Lacks w (u ++ parts.flatten) := by
  induction parts generalizing u with
  | nil => rwa [List.flatten_nil, List.append_nil]
  | cons part parts ih =>
    rw [List.forall_mem_cons] at h
    rw [List.flatten_cons, ← List.append_assoc]
    exact ih (hu.append h.1.1 (.inr h.1.2)) h.2

/-- A text without the word that begins and ends with characters that are not in it. -/
def Separates (w s : List Char) : Prop :=
  Lacks w s ∧ s.head?.any (· ∉ w) = true ∧ s.getLast?.any (· ∉ w) = true

instance (w s : List Char) : Decidable (Separates w s) := inferInstanceAs (Decidable (_ ∧ _))

/-- Fixed texts, each with another text behind it. -/
def interleave : List String → List String → String
  | s :: fixed, field :: fields => s ++ (field ++ interleave fixed fields)
  | _, _ => ""

/-- What begins with a fixed text begins with its first character. -/
theorem head?_interleave {q : Char → Bool} {fixed : List String}
    (hfixed : ∀ s ∈ fixed, s.toList.head?.any q = true) (fields : List String) :
    (interleave fixed fields).toList = [] ∨
      (interleave fixed fields).toList.head?.any q = true := by
  cases fixed with
  | nil => exact .inl rfl
  | cons s fixed =>
    cases fields with
    | nil => exact .inl rfl
    | cons field fields =>
      have hhead := hfixed s List.mem_cons_self
      rw [interleave, String.toList_append]
      cases hs : s.toList with
      | nil => simp [hs] at hhead
      | cons c cs => exact .inr (by rwa [hs] at hhead)

/-- Fixed texts keep a word out that is in none of the texts between them. -/
theorem lacks_interleave {fixed fields : List String} (hw : w ≠ [])
    (hfixed : ∀ s ∈ fixed, Separates w s.toList)
    (hfields : fields.Forall fun field => Lacks w field.toList) :
    Lacks w (interleave fixed fields).toList := by
  rw [List.forall_iff_forall_mem] at hfields
  have hnil : Lacks w [] := fun h => hw (List.infix_nil.mp h)
  induction fixed generalizing fields with
  | nil => exact hnil
  | cons s fixed ih =>
    cases fields with
    | nil => exact hnil
    | cons field fields =>
      rw [List.forall_mem_cons] at hfixed hfields
      rw [interleave, String.toList_append, String.toList_append, ← List.append_assoc]
      -- A field meets a fixed text on both sides, or the end of the whole.
      have hfirst : Lacks w (s.toList ++ field.toList) :=
        hfixed.1.1.append hfields.1 (.inl hfixed.1.2.2)
      have hrest := ih hfixed.2 hfields.2
      rcases head?_interleave (fun s hs => (hfixed.2 s hs).2.1) fields with hend | hhead
      · rwa [hend, List.append_nil]
      · exact hfirst.append hrest (.inr hhead)

/-- The last place of a word in a text. -/
theorem exists_last_occurrence {s : List Char} (hne : w ≠ []) (h : w <:+: s) :
    ∃ u v, s = u ++ (w ++ v) ∧ Lacks w (w ++ v).tail := by
  induction s with
  | nil => exact absurd (List.infix_nil.mp h) hne
  | cons c s ih =>
    by_cases hlater : w <:+: s
    · obtain ⟨u, v, rfl, hv⟩ := ih hlater
      exact ⟨c :: u, v, rfl, hv⟩
    · rcases List.infix_cons_iff.mp h with ⟨v, hv⟩ | h
      · exact ⟨[], v, hv.symm, by rwa [hv]⟩
      · exact absurd h hlater

/-! ## Counting -/

/-- How many times the word stands in the text. -/
def occurrences (w : List Char) : List Char → Nat
  | [] => 0
  | c :: s => (if w.isPrefixOf (c :: s) then 1 else 0) + occurrences w s

theorem occurrences_eq_zero_iff (hw : w ≠ []) : occurrences w u = 0 ↔ Lacks w u := by
  induction u with
  | nil => exact iff_of_true rfl fun h => hw (List.infix_nil.mp h)
  | cons c u ih =>
    rw [occurrences, Nat.add_eq_zero_iff, ih, Lacks, Lacks, List.infix_cons_iff, not_or,
      ← List.isPrefixOf_iff_prefix]
    cases w.isPrefixOf (c :: u) <;> simp

/-- The word cannot stand across the joint: it cannot go on behind the last character of `u`,
    or not before the first one of `v`. -/
def Divides (w u v : List Char) : Prop :=
  u.getLast?.all (· ∉ w.dropLast) = true ∨ v.head?.all (· ∉ w.tail) = true

instance (w u v : List Char) : Decidable (Divides w u v) := inferInstanceAs (Decidable (_ ∨ _))

theorem Divides.isPrefix_append_iff (h : Divides w u v) (hu : u ≠ []) :
    w <+: u ++ v ↔ w <+: u := by
  refine ⟨fun hw => ?_, fun hw => hw.trans (List.prefix_append u v)⟩
  rcases List.prefix_or_prefix_of_prefix hw (List.prefix_append u v) with hin | ⟨x, rfl⟩
  · exact hin
  · -- The word goes on in `v`, so one of the two characters would belong to it.
    cases x with
    | nil => rw [List.append_nil]
    | cons d x =>
      obtain ⟨z, rfl⟩ := (List.prefix_append_right_inj u).mp hw
      rcases h with h | h
      · rw [List.getLast?_eq_some_getLast hu, Option.all_some, decide_eq_true_eq,
          List.dropLast_append_of_ne_nil (by simp)] at h
        exact absurd (List.mem_append_left _ (List.getLast_mem hu)) h
      · rw [List.cons_append, List.head?_cons, Option.all_some, decide_eq_true_eq,
          List.tail_append_of_ne_nil hu] at h
        exact absurd (List.mem_append_right _ List.mem_cons_self) h

/-- Nothing is lost or found where two parts meet. -/
theorem occurrences_append (h : Divides w u v) :
    occurrences w (u ++ v) = occurrences w u + occurrences w v := by
  induction u with
  | nil => rw [List.nil_append, occurrences, Nat.zero_add]
  | cons c u ih =>
    have hrest : Divides w u v := by
      refine h.imp_left fun hlast => ?_
      cases u with
      | nil => rfl
      | cons d u => rwa [List.getLast?_cons_cons] at hlast
    have hfront : w.isPrefixOf (c :: u ++ v) = w.isPrefixOf (c :: u) := by
      rw [Bool.eq_iff_iff, List.isPrefixOf_iff_prefix, List.isPrefixOf_iff_prefix]
      exact h.isPrefix_append_iff (List.cons_ne_nil c u)
    rw [List.cons_append, occurrences, occurrences, ← List.cons_append, hfront, ih hrest,
      Nat.add_assoc]

/-- The first place of a word behind a text without it is not before the end of that text. -/
theorem Lacks.isPrefix_of_isPrefix (hu : Lacks w u) (h : Divides w u v) {x y : List Char}
    (hsplit : u ++ v = x ++ y) (hy : w <+: y) : u <+: x := by
  rcases List.append_eq_append_iff.mp hsplit with ⟨z, rfl, -⟩ | ⟨z, rfl, rfl⟩
  · exact List.prefix_append u z
  · -- Otherwise the word would begin inside `u`, where it cannot go on across the joint.
    cases z with
    | nil => rw [List.append_nil]
    | cons d z =>
      have hlate : Divides w (d :: z) v := by
        refine h.imp_left fun hlast => ?_
        rwa [List.getLast?_append_of_ne_nil _ (by simp)] at hlast
      have hz := (hlate.isPrefix_append_iff (by simp)).mp hy
      exact absurd (hz.isInfix.trans (List.suffix_append x _).isInfix) hu

/-! ## Words that run into no other text -/

/-- The texts differ at a character that both of them have. -/
def clash : List Char → List Char → Bool
  | c :: s, d :: t => c != d || clash s t
  | _, _ => false

theorem append_ne_of_clash {s t : List Char} (h : clash s t = true) (x y : List Char) :
    s ++ x ≠ t ++ y := by
  induction s generalizing t with
  | nil => simp [clash] at h
  | cons c s ih =>
    cases t with
    | nil => simp [clash] at h
    | cons d t =>
      rw [clash, Bool.or_eq_true, bne_iff_ne] at h
      intro heq
      obtain ⟨hcd, hst⟩ := List.cons.inj heq
      exact h.elim (fun hne => hne hcd) (fun hclash => ih hclash hst)

/-- No text that begins with an end of the word begins with one of `heads`. -/
def Misses (w : List Char) (heads : List String) : Prop :=
  ∀ v, v <:+ w → v ≠ [] → ∀ s ∈ heads, ∀ x y, v ++ x ≠ s.toList ++ y

theorem misses_of_clash {heads : List String}
    (h : (w.tails.all fun v => v.isEmpty || heads.all fun s => clash v s.toList) = true) :
    Misses w heads := by
  intro v hv hne s hs
  rw [List.all_eq_true] at h
  have hclash := h v ((List.mem_tails v w).mpr hv)
  rw [Bool.or_eq_true, List.isEmpty_iff, List.all_eq_true] at hclash
  exact append_ne_of_clash (hclash.resolve_left hne s hs)

theorem Misses.mono {heads heads' : List String} (h : Misses w heads)
    (hsub : ∀ s ∈ heads', s ∈ heads) : Misses w heads' :=
  fun v hv hne s hs => h v hv hne s (hsub s hs)

/-- An end of a word of two parts is an end of the second part, or an end of the first part
    stands before the second. -/
theorem suffix_append_cases {s : List Char} (h : s <:+ u ++ v) :
    s <:+ v ∨ ∃ x, x <:+ u ∧ x ≠ [] ∧ s = x ++ v := by
  obtain ⟨a, ha⟩ := h
  rcases List.append_eq_append_iff.mp ha with ⟨x, rfl, rfl⟩ | ⟨b, -, rfl⟩
  · by_cases hx : x = []
    · exact .inl (by simp [hx])
    · exact .inr ⟨x, List.suffix_append a x, hx, rfl⟩
  · exact .inl (List.suffix_append b s)

/-- A word misses what both of its parts miss. -/
theorem Misses.append {heads : List String} (hu : Misses u heads) (hv : Misses v heads) :
    Misses (u ++ v) heads := by
  intro s hs hne t ht x y
  rcases suffix_append_cases hs with hs | ⟨a, ha, hane, rfl⟩
  · exact hv s hs hne t ht x y
  · -- An end of the first part stands before the second, whatever follows.
    rw [List.append_assoc]
    exact hu a ha hane t ht _ y

/-- A text of one class misses what begins with characters outside of it. -/
theorem misses_of_class {cls : Char → Bool} {heads : List String}
    (hw : ∀ c ∈ w, cls c = true)
    (hheads : (heads.all fun s => s.toList.head?.any (!cls ·)) = true) : Misses w heads := by
  intro v hv hne s hs x y heq
  obtain ⟨c, v, rfl⟩ := List.exists_cons_of_ne_nil hne
  have hhead := List.all_eq_true.mp hheads s hs
  cases hchars : s.toList with
  | nil => simp [hchars] at hhead
  | cons d t =>
    rw [hchars] at heq hhead
    obtain ⟨rfl, -⟩ := List.cons.inj heq
    simp [hw _ (hv.subset List.mem_cons_self)] at hhead

end LivePreview.Text
