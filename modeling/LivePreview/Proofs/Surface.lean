/-
  LivePreview.Proofs.Surface

  What a surface shows while documents come and go.

  A url carries the number of its document (`Host.number_eq_of_url_eq`), so a new url
  differs from every one that was given out (`Host.GaveOut.next_not_mem`).  Releasing
  the document that was live before therefore never touches the one that was just
  shown.
-/

import LivePreview.Surface.Runner

namespace LivePreview

/-! ## Urls -/

namespace Host

theorem toList_url (scheme : String) (number : Nat) (document : String) :
    (url scheme number document).toList =
      scheme.toList ++ '/' :: (Nat.toDigits 10 number ++ '-' :: (shortDigest document).toList) := by
  simp [url, Nat.toList_repr]

/-- Digits end where the dash begins. -/
theorem takeWhile_toDigits_append (number : Nat) (rest : List Char) :
    (Nat.toDigits 10 number ++ '-' :: rest).takeWhile (· ≠ '-') = Nat.toDigits 10 number := by
  rw [List.takeWhile_append_of_pos]
  · simp
  · intro c hc
    have hdigit := Nat.isDigit_of_mem_toDigits (by decide) (by decide) hc
    have hne : c ≠ '-' := by
      rintro rfl
      exact absurd hdigit (by decide)
    simpa using hne

/-- Urls of one scheme that are equal belong to documents of the same number. -/
theorem number_eq_of_url_eq {scheme : String} {m n : Nat} {d e : String}
    (h : url scheme m d = url scheme n e) : m = n := by
  -- Behind the same scheme stand the digits, up to the first dash.
  have hchars := congrArg String.toList h
  rw [toList_url, toList_url, List.append_cancel_left_eq, List.cons.injEq] at hchars
  have hdigits := congrArg (List.takeWhile (· ≠ '-')) hchars.2
  rw [takeWhile_toDigits_append, takeWhile_toDigits_append] at hdigits
  rw [← Nat.ofDigitChars_ten_toDigits (n := m), hdigits, Nat.ofDigitChars_ten_toDigits]

/-- Numbers of urls that were given out do not reach the next one. -/
theorem next_ne_url {sequence number : Nat} (hle : number ≤ sequence)
    (scheme document old : String) :
    url scheme (sequence + 1) document ≠ url scheme number old := by
  intro hurl
  have hnumber := number_eq_of_url_eq hurl
  omega

/-- These documents were created on the surface, each under a url of its own, whose number
    was reached. -/
structure GaveOut (docs : List (String × String)) (h : Host) : Prop where
  numbered : ∀ x ∈ docs, ∃ number ≤ h.sequence, x.1 = url h.scheme number x.2
  nodup : (docs.map Prod.fst).Nodup

section GaveOut

variable {docs : List (String × String)} {h : Host}

/-- The url of the next document was never given out. -/
theorem GaveOut.next_not_mem (hg : GaveOut docs h) (document : String) :
    (h.create document).1 ∉ docs.map Prod.fst := by
  intro hmem
  obtain ⟨x, hx, hurl⟩ := List.mem_map.mp hmem
  obtain ⟨number, hle, hold⟩ := hg.numbered x hx
  exact next_ne_url hle _ _ _ (hurl.symm.trans hold)

theorem GaveOut.create (hg : GaveOut docs h) (document : String) :
    GaveOut (docs ++ [((h.create document).1, document)]) (h.create document).2 where
  numbered := by
    intro x hx
    rcases List.mem_append.mp hx with hx | hx
    · obtain ⟨number, hle, hurl⟩ := hg.numbered x hx
      exact ⟨number, Nat.le_succ_of_le hle, hurl⟩
    · rw [List.mem_singleton.mp hx]
      exact ⟨h.sequence + 1, Nat.le_refl _, rfl⟩
  nodup := by
    rw [List.map_append, List.nodup_append]
    refine ⟨hg.nodup, by simp, ?_⟩
    intro url hurl new hmem heq
    rw [List.map_singleton, List.mem_singleton] at hmem
    exact hg.next_not_mem document (hmem ▸ heq ▸ hurl)

/-- What was given out depends on how far the numbers of the scheme have come. -/
theorem GaveOut.congr (hg : GaveOut docs h) {h' : Host} (hscheme : h'.scheme = h.scheme)
    (hsequence : h'.sequence = h.sequence) : GaveOut docs h' :=
  ⟨by rw [hscheme, hsequence]; exact hg.numbered, hg.nodup⟩

end GaveOut

/-- Releasing a url leaves the documents of the others. -/
theorem get?_resources_release {h : Host} {old new : String} (hne : new ≠ old) :
    (h.release old).resources.get? new = h.resources.get? new := by
  unfold release
  split
  · simp [Table.get?_erase, hne]
  · rfl

@[simp] theorem loaded_release (h : Host) (url : String) : (h.release url).loaded = h.loaded := by
  unfold release
  split <;> rfl

@[simp] theorem scheme_release (h : Host) (url : String) : (h.release url).scheme = h.scheme := by
  unfold release
  split <;> rfl

@[simp] theorem sequence_release (h : Host) (url : String) :
    (h.release url).sequence = h.sequence := by
  unfold release
  split <;> rfl

end Host

/-! ## One live document -/

namespace Runner

/-- The live url, if there is one, is that of a document created on the surface. -/
def OwnsCurrent (r : Runner) : Prop :=
  ∀ url, r.current = some url →
    ∃ number document, number ≤ r.host.sequence ∧ url = Host.url r.host.scheme number document

/-- While a url is live, there is that document, and it is seen. -/
def Shows (r : Runner) (document : Option String) : Prop :=
  r.current ≠ none → document ≠ none ∧ r.host.loadedDocument? = document

theorem ownsCurrent_ofScheme (scheme : String) : (ofScheme scheme).OwnsCurrent := by
  intro url h
  cases h

theorem ownsCurrent_teardown (r : Runner) : r.teardown.OwnsCurrent := by
  intro url h
  cases h

theorem shows_teardown (r : Runner) (document : Option String) : r.teardown.Shows document :=
  fun h => absurd rfl h

@[simp] theorem loaded_releaseIfAny (h : Host) (url : Option String) :
    (releaseIfAny h url).loaded = h.loaded := by
  cases url <;> simp [releaseIfAny]

@[simp] theorem scheme_releaseIfAny (h : Host) (url : Option String) :
    (releaseIfAny h url).scheme = h.scheme := by
  cases url <;> simp [releaseIfAny]

@[simp] theorem sequence_releaseIfAny (h : Host) (url : Option String) :
    (releaseIfAny h url).sequence = h.sequence := by
  cases url <;> simp [releaseIfAny]

theorem get?_resources_releaseIfAny {h : Host} {old : Option String} {new : String}
    (hne : old ≠ some new) :
    (releaseIfAny h old).resources.get? new = h.resources.get? new := by
  cases old with
  | none => rfl
  | some url => exact Host.get?_resources_release fun e => hne (congrArg some e.symm)

/-- The url of the next document is not the live one. -/
theorem OwnsCurrent.ne_next {r : Runner} (h : r.OwnsCurrent) (document : String) :
    r.current ≠ some (Host.url r.host.scheme (r.host.sequence + 1) document) := by
  intro hcur
  obtain ⟨number, old, hle, hurl⟩ := h _ hcur
  exact Host.next_ne_url hle _ _ _ hurl

theorem ownsCurrent_present {r : Runner} (h : r.OwnsCurrent) (generation : Nat)
    (document : String) : (r.present generation document).2.OwnsCurrent := by
  unfold present
  split
  · exact h
  · intro url hurl
    refine ⟨r.host.sequence + 1, document, ?_, ?_⟩
    · simp [Host.create, Host.load]
    · simpa [Host.create, Host.load] using hurl.symm

/-- A build that is not stale is what is seen afterwards. -/
theorem shows_present {r : Runner} (h : r.OwnsCurrent) {generation : Nat}
    (hfresh : r.isStale generation = false) (document : String) :
    (r.present generation document).2.Shows (some document) := by
  intro _
  refine ⟨Option.some_ne_none document, ?_⟩
  -- The document is created and loaded before the old one is released.
  let host := (r.host.create document).2.load (r.host.create document).1
  have hkeep : (releaseIfAny host r.current).resources.get? (r.host.create document).1 =
      host.resources.get? (r.host.create document).1 :=
    get?_resources_releaseIfAny (h.ne_next document)
  have hput : host.resources.get? (r.host.create document).1 = some document :=
    Table.get?_put_self _ _ _
  simp only [present, hfresh, Bool.false_eq_true, if_false, Host.loadedDocument?,
    loaded_releaseIfAny, Host.load, Option.bind_some]
  exact hkeep.trans hput

/-- No newer build was shown than the one with that number. -/
theorem isStale_of_latest_le {r : Runner} {generation : Nat}
    (h : ∀ g, r.latest = some g → g ≤ generation) : r.isStale generation = false := by
  unfold isStale
  cases hl : r.latest with
  | none => rfl
  | some g =>
    have hle := h g hl
    simp only [Option.any_some, decide_eq_false_iff_not]
    omega

end Runner

end LivePreview
