/-
  LivePreview.Proofs.ClosingTags

  Closing tags of script elements in texts made fit for a page.

  `Html.closings` counts them, whatever the case of their letters.  Escaped markup and
  strings hold none, as they bring no `<` in; escaped script text holds none, since what
  would still read as a closing tag would have been a match (`closings_escapeScript`).
  Texts are counted part by part, as long as no tag can stand across the joints
  (`closings_append`).
-/

import LivePreview.Html.Document
import LivePreview.Proofs.Rewriting

namespace LivePreview

open Pattern Script Text

namespace Html

/-! ## Letters in any case -/

/-- Which letters count as one. -/
inductive Folding where
  /-- ASCII letters, whatever their case. -/
  | ascii
  /-- The long s as well. -/
  | unicode
deriving DecidableEq

namespace Folding

instance (P : Folding → Prop) [DecidablePred P] : Decidable (∀ φ, P φ) :=
  decidable_of_iff (P ascii ∧ P unicode)
    ⟨fun h φ => by cases φ; exacts [h.1, h.2], fun h => ⟨h ascii, h unicode⟩⟩

variable {φ : Folding} {c d : Char}

/-- The letter that stands for all that count as one with it. -/
def fold : Folding → Char → Char
  | ascii, c => c.toLower
  | unicode, c => if c = '\u017f' then 's' else c.toLower

/-- The characters that can fold to the given one. -/
def sources (d : Char) : List Char :=
  d :: ([Char.ofNat (d.toNat - 32)].filter Char.isUpper ++ if d = 's' then ['\u017f'] else [])

theorem eq_or_isUpper_of_toLower (h : c.toLower = d) :
    c = d ∨ c.isUpper = true ∧ c = Char.ofNat (d.toNat - 32) := by
  unfold Char.toLower at h
  split at h
  · next hupper =>
    have hnat : c.toNat + 32 = d.toNat := by
      have hval := congrArg Char.toNat h
      have hhigh : c.val.toNat ≤ 90 := hupper.2
      have hgap : ('a'.val - 'A'.val).toNat = 32 := by decide
      simp only [Char.toNat, UInt32.toNat_add, hgap] at hval
      rw [Nat.mod_eq_of_lt (by omega)] at hval
      exact hval
    refine .inr ⟨?_, ?_⟩
    · exact decide_eq_true hupper
    · rw [← hnat, Nat.add_sub_cancel, Char.ofNat_toNat]
  · exact .inl h

theorem mem_sources_of_fold (h : φ.fold c = d) : c ∈ sources d := by
  have hlower : c.toLower = d → c ∈ sources d := by
    intro hlower
    rcases eq_or_isUpper_of_toLower hlower with rfl | ⟨hupper, rfl⟩
    · exact List.mem_cons_self
    · exact List.mem_cons_of_mem d (List.mem_append_left _ (by simp [hupper]))
  cases φ with
  | ascii => exact hlower h
  | unicode =>
    rw [fold] at h
    split at h
    · next hlong => rw [hlong, ← h]; decide
    · exact hlower h

/-- What is no letter stands for itself. -/
theorem eq_of_fold (hd : sources d = [d]) (h : φ.fold c = d) : c = d :=
  List.mem_singleton.mp (hd ▸ mem_sources_of_fold h)

/-- The letters of a text. -/
def text (φ : Folding) (s : String) : List Char := s.toList.map φ.fold

@[simp] theorem text_append (φ : Folding) (s t : String) :
    φ.text (s ++ t) = φ.text s ++ φ.text t := by
  rw [text, String.toList_append, List.map_append]
  rfl

end Folding

/-! ## Closing tags -/

/-- The beginning of the closing tag of a script element. -/
def closingTag : List Char := ['<', '/', 's', 'c', 'r', 'i', 'p', 't']

/-- How many closing tags of script elements the text holds. -/
def closings (φ : Folding) (s : String) : Nat := occurrences closingTag (φ.text s)

variable {φ : Folding} {s t : String}

theorem closings_eq_zero_iff : closings φ s = 0 ↔ Lacks closingTag (φ.text s) :=
  occurrences_eq_zero_iff (by decide)

theorem closings_append (h : Divides closingTag (φ.text s) (φ.text t)) :
    closings φ (s ++ t) = closings φ s + closings φ t := by
  rw [closings, Folding.text_append, occurrences_append h]
  rfl

/-- A text without `<` closes nothing. -/
theorem closings_of_not_mem (h : '<' ∉ s.toList) : closings φ s = 0 := by
  refine closings_eq_zero_iff.mpr (lacks_of_not_mem (c := '<') (by decide) ?_)
  intro hmem
  obtain ⟨c, hc, hfold⟩ := List.mem_map.mp hmem
  exact h (Folding.eq_of_fold (by decide) hfold ▸ hc)

/-- The tags of a text that is given by its characters, which are there to compute with. -/
theorem closings_ofList (l : List Char) :
    closings φ (String.ofList l) = occurrences closingTag (l.map φ.fold) := by
  rw [closings, Folding.text, String.toList_ofList]

theorem closings_fixed {l : List Char}
    (h : ∀ φ : Folding, occurrences closingTag (l.map φ.fold) = 0) :
    closings φ (String.ofList l) = 0 := by
  rw [closings_ofList, h φ]

/-- Between the two texts another one can be put without a closing tag across their joints. -/
def Encloses (φ : Folding) (a b : List Char) : Prop :=
  (a.map φ.fold).getLast?.all (· ∉ closingTag.dropLast) = true ∧
    (b.map φ.fold).head?.all (· ∉ closingTag.tail) = true

instance (φ : Folding) (a b : List Char) : Decidable (Encloses φ a b) :=
  inferInstanceAs (Decidable (_ ∧ _))

theorem closings_enclosed {a b : List Char} (h : Encloses φ a b) (x : String) :
    closings φ (String.ofList a ++ x ++ String.ofList b) =
      occurrences closingTag (a.map φ.fold) + closings φ x +
        occurrences closingTag (b.map φ.fold) := by
  have hleft : Divides closingTag (φ.text (String.ofList a)) (φ.text x) := by
    rw [Folding.text, String.toList_ofList]
    exact .inl h.1
  have hright : Divides closingTag (φ.text (String.ofList a ++ x)) (φ.text (String.ofList b)) := by
    rw [Folding.text, Folding.text, String.toList_ofList]
    exact .inr h.2
  rw [closings_append hright, closings_append hleft, closings_ofList, closings_ofList]

/-! ## Escaped texts -/

theorem not_mem_escape (s : String) : '<' ∉ (escape s).toList := by
  rw [toList_escape]
  exact not_mem_escapeChars (by decide) _

theorem not_mem_quote {s : String} (h : '<' ∉ s.toList) : '<' ∉ (Json.quote s).toList := by
  have hencoded : ∀ c, '<' ∈ Json.Quoted.encodeChar c → c = '<' :=
    Json.Quoted.forall_encodeChar (P := fun c t => '<' ∈ t → c = '<') (by decide)
      fun c hmem => (List.mem_singleton.mp hmem).symm
  rw [Json.quote, String.toList_ofList, Json.Quoted.encode, List.cons_append, List.mem_cons,
    List.mem_append, List.mem_singleton, List.mem_flatMap]
  rintro (hopen | ⟨c, hc, hmem⟩ | hclose)
  · cases hopen
  · exact h (hencoded c hmem ▸ hc)
  · cases hclose

/-- Every text that folds to the word is matched wherever it stands. -/
def TakesFolded (p : Pattern) (w : List Char) : Prop :=
  ∀ (φ : Folding) (l : List Char), l.map φ.fold = w → ∀ last r, p.Takes last l r []

theorem takesFolded_one {cls : Char → Bool} {d : Char}
    (hcls : (Folding.sources d).all cls = true) : TakesFolded (one cls) [d] := by
  intro φ l h last r
  obtain ⟨c, rfl, hc⟩ := List.map_eq_singleton_iff.mp h
  exact ⟨⟨c, rfl, List.all_eq_true.mp hcls c (Folding.mem_sources_of_fold hc)⟩, rfl⟩

theorem TakesFolded.append {p q : Pattern} {u v : List Char} (hp : TakesFolded p u)
    (hq : TakesFolded q v) : TakesFolded (p ++ q) (u ++ v) := by
  intro φ l h last r
  obtain ⟨l₁, l₂, rfl, hl₁, hl₂⟩ := List.map_eq_append_iff.mp h
  exact ⟨l₁, l₂, [], [], rfl, rfl, hp φ l₁ hl₁ last _, hq φ l₂ hl₂ _ r⟩

theorem takesFolded_scriptClose : TakesFolded Shape.scriptClose closingTag :=
  (((((((takesFolded_one (by decide)).append (takesFolded_one (by decide))).append
    (takesFolded_one (by decide))).append (takesFolded_one (by decide))).append
    (takesFolded_one (by decide))).append (takesFolded_one (by decide))).append
    (takesFolded_one (by decide))).append (takesFolded_one (by decide))

theorem ne_nil_of_takes_scriptClose {last : Option Char} {u r : List Char}
    {gs : List (List Char)} (h : Shape.scriptClose.Takes last u r gs) : u ≠ [] := by
  obtain ⟨_, _, _, _, rfl, -, -, ⟨c, rfl, -⟩, -⟩ := h
  exact List.append_ne_nil_of_right_ne_nil _ (List.cons_ne_nil c [])

theorem isPrefix_of_folded {l : List Char} (h : l.map φ.fold = closingTag) :
    "</".toList <+: l := by
  obtain ⟨a, _, rfl, ha, h⟩ := List.map_eq_cons_iff.mp h
  obtain ⟨b, l, rfl, hb, -⟩ := List.map_eq_cons_iff.mp h
  rw [Folding.eq_of_fold (by decide) ha, Folding.eq_of_fold (by decide) hb]
  exact ⟨l, rfl⟩

/-- A text misses what its letters miss. -/
theorem misses_of_fold {l : List Char} {heads : List String} (h : Misses (l.map φ.fold) heads)
    (hheads : ∀ s ∈ heads, φ.text s = s.toList) : Misses l heads := by
  intro v hv hne s hs x y heq
  refine h _ (hv.map φ.fold) (by simpa using hne) s hs (x.map φ.fold) (y.map φ.fold) ?_
  rw [← List.map_append, heq, List.map_append]
  exact congrArg (· ++ y.map φ.fold) (hheads s hs)

/-- Escaped script text closes nothing: a text in it that folds to the closing tag stood in
    the code before, and would have been replaced. -/
theorem closings_escapeScript (code : String) : closings φ (escapeScript code) = 0 := by
  refine closings_eq_zero_iff.mpr fun hin => ?_
  rw [Folding.text, escapeScript, String.toList_ofList, escapeScriptChars] at hin
  obtain ⟨l, hl, htag⟩ := List.infix_map_iff.mp hin
  have hne : l ≠ [] := by
    rintro rfl
    cases htag
  have hmisses : Misses l ["<\\"] := by
    refine misses_of_fold (φ := φ) (htag ▸ misses_of_clash (by decide)) ?_
    cases φ <;> decide
  have hhead := isPrefix_of_folded htag.symm
  -- What replaces a match begins otherwise than the tag, so the tag has no part in it.
  have hwrites : Shape.scriptClose.WritesFrom (fun _ => "<\\/script".toList) ["<\\"] :=
    fun _ _ _ _ _ => ⟨_, List.mem_singleton_self _, ⟨_, rfl⟩⟩
  have hwritten : Misses "<\\/script".toList ["</"] := misses_of_clash (by decide)
  obtain ⟨a, _, -, ⟨r, rfl⟩, hidle⟩ := exists_idle_of_infix_replace hne hwrites hmisses
    (fun _ _ _ _ _ _ v => not_isPrefix_of_misses hhead hwritten) hl
  exact not_isIdle_of_takes (fun _ _ _ _ => ne_nil_of_takes_scriptClose)
    (takesFolded_scriptClose φ l htag.symm _ r) hidle

end Html

end LivePreview
