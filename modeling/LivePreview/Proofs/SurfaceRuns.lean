/-
  LivePreview.Proofs.SurfaceRuns

  What becomes of a surface while documents arrive in any order and are torn down in
  between.

  Every call keeps two invariants.  `Runner.Refuses` says which documents are dropped:
  those of builds older than one that was presented before, although the runner knows
  only the newest build that it showed.  `Runner.Accounts` says where the documents
  are that were shown: all but the live one were released in their order, and the live
  one is alone on the surface.  Both start on an empty surface and are carried through
  a run (`refuses_calls`, `accounts_calls`).
-/

import LivePreview.Proofs.Surface

namespace LivePreview.Runner

/-! ## Runs -/

/-- What can be asked of a runner. -/
inductive Call where
  | present (generation : Nat) (document : String)
  | teardown
deriving DecidableEq

/-- The runner after a call. -/
def call (r : Runner) : Call → Runner
  | .present generation document => (r.present generation document).2
  | .teardown => r.teardown

/-- The runner after some calls. -/
def calls (r : Runner) (todo : List Call) : Runner := todo.foldl call r

/-- The builds presented, whether they were shown or not. -/
def presented (todo : List Call) : List Nat :=
  todo.filterMap fun
    | .present generation _ => some generation
    | .teardown => none

/-- The document that a call shows, with its url. -/
def shownBy (r : Runner) : Call → List (String × String)
  | .present generation document => ((r.present generation document).1.map (·, document)).toList
  | .teardown => []

/-- The documents shown in a run with their urls, in order. -/
def shown (r : Runner) : List Call → List (String × String)
  | [] => []
  | c :: rest => r.shownBy c ++ (r.call c).shown rest

theorem calls_cons (r : Runner) (c : Call) (rest : List Call) :
    r.calls (c :: rest) = (r.call c).calls rest := rfl

theorem calls_append (r : Runner) (xs ys : List Call) :
    r.calls (xs ++ ys) = (r.calls xs).calls ys := by
  simp [calls]

/-! ## Presenting -/

/-- The surface right after a document was created and loaded. -/
def withNew (h : Host) (document : String) : Host :=
  (h.create document).2.load (h.create document).1

theorem present_of_not_isStale {r : Runner} {generation : Nat}
    (h : r.isStale generation = false) (document : String) :
    r.present generation document =
      (some (r.host.create document).1,
        ⟨releaseIfAny (withNew r.host document) r.current, some (r.host.create document).1,
          some generation⟩) := by
  simp [present, h, withNew]

/-- A document is shown unless its build is stale. -/
theorem isSome_present_iff {r : Runner} {generation : Nat} {document : String} :
    (r.present generation document).1.isSome ↔ r.isStale generation = false := by
  cases h : r.isStale generation with
  | true => simp [present_of_isStale h]
  | false => simp [present_of_not_isStale h]

/-! ## Which builds are refused -/

/-- The builds refused now are those older than one of these. -/
def Refuses (builds : List Nat) (r : Runner) : Prop :=
  ∀ generation, r.isStale generation = true ↔ ∃ g ∈ builds, generation < g

theorem refuses_ofScheme (scheme : String) : Refuses [] (ofScheme scheme) := by
  intro generation
  simp [isStale, ofScheme]

/-- A call counts with the build it presents, also if that is not shown. -/
theorem Refuses.call {builds : List Nat} {r : Runner} (h : Refuses builds r) (c : Call) :
    Refuses (builds ++ presented [c]) (r.call c) := by
  cases c with
  | teardown =>
    -- What was shown is given up, but not of which build it was.
    intro g
    have hlatest : (r.call .teardown).isStale g = r.isStale g := rfl
    simpa [hlatest, presented] using h g
  | present generation document =>
    intro g
    have hpresented : presented [.present generation document] = [generation] := rfl
    simp only [hpresented, List.mem_append, List.mem_singleton, or_and_right, exists_or,
      exists_eq_left, Runner.call]
    cases hstale : r.isStale generation with
    | true =>
      -- Another build is newer than this one, so this one refuses nothing on its own.
      obtain ⟨newer, hmem, hlt⟩ := (h generation).mp hstale
      rw [present_of_isStale hstale, h g]
      exact ⟨.inl, fun hg => hg.elim id fun hg => ⟨newer, hmem, by omega⟩⟩
    | false =>
      -- No build before is newer, so all that they refuse is refused by this one.
      have hle : ∀ x ∈ builds, x ≤ generation := by
        intro x hx
        refine Nat.le_of_not_lt fun hlt => ?_
        have hrefused := (h generation).mpr ⟨x, hx, hlt⟩
        rw [hstale] at hrefused
        cases hrefused
      rw [present_of_not_isStale hstale]
      simp only [isStale, Option.any_some, decide_eq_true_eq]
      refine ⟨.inr, fun hg => hg.elim ?_ id⟩
      rintro ⟨x, hx, hlt⟩
      have := hle x hx
      omega

theorem Refuses.calls {builds : List Nat} {r : Runner} (h : Refuses builds r)
    (todo : List Call) : Refuses (builds ++ presented todo) (r.calls todo) := by
  induction todo generalizing builds r with
  | nil => simpa [presented, Runner.calls] using h
  | cons c rest ih =>
    have hcons : presented (c :: rest) = presented [c] ++ presented rest := by
      cases c <;> rfl
    rw [hcons, ← List.append_assoc]
    exact ih (h.call c)

/-- After a run those builds are refused that are older than one presented in it. -/
theorem refuses_calls (scheme : String) (todo : List Call) :
    Refuses (presented todo) ((ofScheme scheme).calls todo) :=
  (refuses_ofScheme scheme).calls todo

/-- While only refused builds are presented, nothing is shown. -/
theorem shown_eq_nil {r : Runner} {todo : List Call}
    (h : ∀ g ∈ presented todo, r.isStale g = true) (hlive : Call.teardown ∉ todo) :
    r.shown todo = [] := by
  induction todo with
  | nil => rfl
  | cons c rest ih =>
    rw [List.mem_cons, not_or] at hlive
    cases c with
    | teardown => exact absurd rfl hlive.1
    | present generation document =>
      have hstale : r.isStale generation = true := h generation (by simp [presented])
      have hrest : ∀ g ∈ presented rest, r.isStale g = true := fun g hg =>
        h g (by simpa [presented] using .inr (by simpa [presented] using hg))
      simp only [shown, shownBy, Runner.call, present_of_isStale hstale, Option.map_none,
        Option.toList_none, List.nil_append]
      exact ih hrest hlive.2

/-! ## Where the documents are -/

/-- These documents were shown: all but the live one are released, in their order,
    and the live one is alone on the surface. -/
structure Accounts (docs : List (String × String)) (r : Runner) : Prop where
  numbered : ∀ x ∈ docs, ∃ number ≤ r.host.sequence, x.1 = Host.url r.host.scheme number x.2
  nodup : (docs.map Prod.fst).Nodup
  urls_eq : docs.map Prod.fst = r.host.released ++ r.current.toList
  live : match r.current with
    | some url => ∃ document, docs.getLast? = some (url, document) ∧
        r.host.resources.entries = [(url, document)] ∧ r.host.loaded = some url
    | none => r.host.resources.entries = []

theorem accounts_ofScheme (scheme : String) : Accounts [] (ofScheme scheme) :=
  ⟨by simp, List.nodup_nil, rfl, rfl⟩

section Accounts

variable {docs : List (String × String)} {r : Runner}

/-- The surface has no document but the one whose url is live. -/
theorem Accounts.keys_eq (h : Accounts docs r) : r.host.resources.keys = r.current.toList := by
  have hlive := h.live
  unfold Table.keys
  split at hlive
  · next url hcurrent =>
    obtain ⟨document, -, hentries, -⟩ := hlive
    rw [hentries, hcurrent]
    rfl
  · next hcurrent => rw [hlive, hcurrent]; rfl

theorem Accounts.gaveOut (h : Accounts docs r) : Host.GaveOut docs r.host := ⟨h.numbered, h.nodup⟩

/-- The new document stands behind the live one, if there is one. -/
theorem Accounts.entries_withNew (h : Accounts docs r) (document : String) :
    (withNew r.host document).resources.entries =
      r.host.resources.entries ++ [((r.host.create document).1, document)] := by
  have hnew : (r.host.create document).1 ∉ r.host.resources.keys := by
    intro hmem
    refine h.gaveOut.next_not_mem document ?_
    rw [h.urls_eq]
    exact List.mem_append_right _ (h.keys_eq ▸ hmem)
  exact Table.entries_put_of_not_mem hnew document

/-- Releasing the live url leaves the new document alone on the surface. -/
theorem Accounts.releaseIfAny_withNew (h : Accounts docs r) (document : String) :
    (releaseIfAny (withNew r.host document) r.current).resources.entries =
        [((r.host.create document).1, document)] ∧
      (releaseIfAny (withNew r.host document) r.current).released =
        r.host.released ++ r.current.toList := by
  have hentries := h.entries_withNew document
  have hreleased : (withNew r.host document).released = r.host.released := rfl
  have hlive := h.live
  cases hcurrent : r.current with
  | none =>
    rw [hcurrent] at hlive
    rw [hlive] at hentries
    exact ⟨hentries, by simp [releaseIfAny, hreleased]⟩
  | some url =>
    rw [hcurrent] at hlive
    obtain ⟨old, -, hold, -⟩ := hlive
    rw [hold] at hentries
    -- The new url was never given out, so it is not the live one.
    have hne : (r.host.create document).1 ≠ url := by
      intro heq
      refine h.gaveOut.next_not_mem document ?_
      rw [h.urls_eq, hcurrent]
      exact List.mem_append_right _ (List.mem_singleton.mpr heq)
    have hcontains : (withNew r.host document).resources.contains url = true := by
      rw [Table.contains_iff_mem_keys, Table.keys, hentries]
      simp
    simp only [releaseIfAny, Host.release, hcontains, if_true, Table.entries_erase, hentries,
      hreleased]
    simp [hne]

/-- With the live document the surface gives up its last one. -/
theorem Accounts.teardown (h : Accounts docs r) : Accounts docs r.teardown := by
  obtain ⟨hnumbered, hnodup, hurls, hlive⟩ := h
  unfold Runner.teardown
  cases hcurrent : r.current with
  | none =>
    rw [hcurrent] at hurls hlive
    exact ⟨hnumbered, hnodup, hurls, hlive⟩
  | some url =>
    rw [hcurrent] at hurls hlive
    obtain ⟨document, -, hentries, -⟩ := hlive
    have hcontains : r.host.resources.contains url = true := by
      rw [Table.contains_iff_mem_keys, Table.keys, hentries]
      simp
    refine ⟨by simpa [releaseIfAny] using hnumbered, hnodup, ?_, ?_⟩
    · simpa [releaseIfAny, Host.release, hcontains] using hurls
    · simp [releaseIfAny, Host.release, hcontains, hentries]

/-- A document that is shown joins the account, and the one before it is released. -/
theorem Accounts.present (h : Accounts docs r) {generation : Nat}
    (hfresh : r.isStale generation = false) (document : String) :
    Accounts (docs ++ [((r.host.create document).1, document)])
      (r.present generation document).2 := by
  obtain ⟨hentries, hreleased⟩ := h.releaseIfAny_withNew document
  have hgave : Host.GaveOut (docs ++ [((r.host.create document).1, document)])
      (releaseIfAny (withNew r.host document) r.current) :=
    (h.gaveOut.create document).congr (by simp [withNew, Host.load])
      (by simp [withNew, Host.load])
  rw [present_of_not_isStale hfresh]
  refine ⟨hgave.numbered, hgave.nodup, ?_, ?_⟩
  · rw [List.map_append, h.urls_eq, hreleased]
    rfl
  · exact ⟨document, by simp, hentries, by simp [withNew, Host.load]⟩

/-- Every call keeps the account. -/
theorem Accounts.call (h : Accounts docs r) (c : Call) :
    Accounts (docs ++ r.shownBy c) (r.call c) := by
  cases c with
  | teardown =>
    rw [shownBy, List.append_nil]
    exact h.teardown
  | present generation document =>
    cases hstale : r.isStale generation with
    | true =>
      simpa only [shownBy, Runner.call, present_of_isStale hstale, Option.map_none,
        Option.toList_none, List.append_nil] using h
    | false =>
      simp only [shownBy, present_of_not_isStale hstale, Option.map_some, Option.toList_some]
      exact h.present hstale document

theorem Accounts.calls (h : Accounts docs r) (todo : List Call) :
    Accounts (docs ++ r.shown todo) (r.calls todo) := by
  induction todo generalizing docs r with
  | nil => simpa [shown, Runner.calls] using h
  | cons c rest ih =>
    rw [shown, ← List.append_assoc]
    exact ih (h.call c)

/-- While a url is live, the document shown last is seen. -/
theorem Accounts.loadedDocument?_eq (h : Accounts docs r) (hcurrent : r.current ≠ none) :
    r.host.loadedDocument? = docs.getLast?.map Prod.snd := by
  have hlive := h.live
  split at hlive
  · obtain ⟨document, hlast, hentries, hloaded⟩ := hlive
    simp [Host.loadedDocument?, hloaded, Table.get?, hentries, hlast]
  · contradiction

end Accounts

/-- After a run the documents shown in it are accounted for. -/
theorem accounts_calls (scheme : String) (todo : List Call) :
    Accounts ((ofScheme scheme).shown todo) ((ofScheme scheme).calls todo) :=
  (accounts_ofScheme scheme).calls todo

/-- Without a teardown a url stays live, perhaps another one. -/
theorem current_calls_ne_none {r : Runner} {todo : List Call} (h : r.current ≠ none)
    (hlive : Call.teardown ∉ todo) : (r.calls todo).current ≠ none := by
  induction todo generalizing r with
  | nil => exact h
  | cons c rest ih =>
    rw [List.mem_cons, not_or] at hlive
    refine ih ?_ hlive.2
    cases c with
    | teardown => exact absurd rfl hlive.1
    | present generation document =>
      cases hstale : r.isStale generation with
      | true => rwa [call, present_of_isStale hstale]
      | false => simp [call, present_of_not_isStale hstale]

/-! ## The newest build is seen -/

/-- A document that is shown is seen until a newer one is shown or it is torn down. -/
theorem loadedDocument?_calls {r : Runner} {docs : List (String × String)} (h : Accounts docs r)
    {generation : Nat} {document : String}
    (hshown : (r.present generation document).1.isSome) {later : List Call}
    (hlive : Call.teardown ∉ later)
    (hrest : (r.present generation document).2.shown later = []) :
    ((r.present generation document).2.calls later).host.loadedDocument? = some document := by
  have hstale := isSome_present_iff.mp hshown
  have hnext : Accounts (docs ++ [((r.host.create document).1, document)])
      (r.present generation document).2 := by
    have hcall := h.call (.present generation document)
    rwa [shownBy, present_of_not_isStale hstale] at hcall
  have hcurrent : (r.present generation document).2.current ≠ none := by
    simp [present_of_not_isStale hstale]
  have hfinal := hnext.calls later
  rw [hrest, List.append_nil] at hfinal
  rw [hfinal.loadedDocument?_eq (current_calls_ne_none hcurrent hlive)]
  simp

/-- A document is shown exactly if no build presented before is newer than its own. -/
theorem isSome_present_calls_iff (scheme : String) (before : List Call) (generation : Nat)
    (document : String) :
    (((ofScheme scheme).calls before).present generation document).1.isSome ↔
      ∀ g ∈ presented before, g ≤ generation := by
  rw [isSome_present_iff, Bool.eq_false_iff, ne_eq, refuses_calls scheme before generation]
  simp

/-- A document that is not shown changes nothing. -/
theorem present_eq_self {r : Runner} {generation : Nat} {document : String}
    (h : (r.present generation document).1 = none) : (r.present generation document).2 = r := by
  cases hstale : r.isStale generation with
  | true => rw [present_of_isStale hstale]
  | false =>
    rw [present_of_not_isStale hstale] at h
    cases h

theorem presented_map (builds : List (Nat × String)) :
    presented (builds.map fun x => .present x.1 x.2) = builds.map Prod.fst := by
  rw [presented, List.filterMap_map]
  exact congrFun List.filterMap_eq_map builds

/-- Builds of different generations leave the newest on the surface, in whatever order
    they arrive. -/
theorem loadedDocument?_of_newest (scheme : String) {arrival : List (Nat × String)}
    (hnodup : (arrival.map Prod.fst).Nodup) {newest : Nat × String} (hmem : newest ∈ arrival)
    (hmax : ∀ x ∈ arrival, x.1 ≤ newest.1) :
    ((ofScheme scheme).calls (arrival.map fun x => .present x.1 x.2)).host.loadedDocument? =
      some newest.2 := by
  -- What arrives before the newest build does not keep it away, what arrives after it is older.
  obtain ⟨earlier, later, rfl⟩ := List.append_of_mem hmem
  let before := earlier.map fun x => Call.present x.1 x.2
  have hshown : (((ofScheme scheme).calls before).present newest.1 newest.2).1.isSome := by
    rw [isSome_present_calls_iff, presented_map]
    intro g hg
    obtain ⟨x, hx, rfl⟩ := List.mem_map.mp hg
    exact hmax x (List.mem_append_left _ hx)
  have hlater : ∀ x ∈ later, x.1 < newest.1 := by
    intro x hx
    have hle := hmax x (List.mem_append_right _ (List.mem_cons_of_mem _ hx))
    rw [List.map_append, List.map_cons, List.nodup_append, List.nodup_cons] at hnodup
    have hne : x.1 ≠ newest.1 := fun heq => hnodup.2.1.1 (heq ▸ List.mem_map_of_mem hx)
    omega
  have hrefuses := (refuses_calls scheme before).call (.present newest.1 newest.2)
  rw [List.map_append, List.map_cons, calls_append, calls_cons]
  refine loadedDocument?_calls (accounts_calls scheme before) hshown (by simp) ?_
  refine shown_eq_nil ?_ (by simp)
  rw [presented_map]
  intro g hg
  obtain ⟨x, hx, rfl⟩ := List.mem_map.mp hg
  exact (hrefuses x.1).mpr ⟨newest.1, by simp [presented], hlater x hx⟩

/-- On any surface, whatever was presented and torn down before: a document is shown
    exactly if no build presented before is newer than its own, also if that one was
    not shown or was torn down; a document that is not shown changes nothing; and the
    document shown last is seen unless there was a teardown after it.  Builds of
    different generations leave the newest on the surface, in whatever order they
    arrive. -/
theorem newest_is_seen (scheme : String) :
    (∀ before generation document,
      let r := (ofScheme scheme).calls before
      ((r.present generation document).1.isSome ↔ ∀ g ∈ presented before, g ≤ generation) ∧
        ((r.present generation document).1 = none → (r.present generation document).2 = r)) ∧
    (∀ before generation document later,
      let r := (ofScheme scheme).calls before
      let final := (ofScheme scheme).calls (before ++ .present generation document :: later)
      (r.present generation document).1.isSome → Call.teardown ∉ later →
        (r.present generation document).2.shown later = [] →
          final.host.loadedDocument? = some document) ∧
    (∀ builds arrival : List (Nat × String), (builds.map Prod.fst).Nodup → arrival.Perm builds →
      ∀ newest ∈ builds, (∀ x ∈ builds, x.1 ≤ newest.1) →
        let final := (ofScheme scheme).calls (arrival.map fun x => .present x.1 x.2)
        final.host.loadedDocument? = some newest.2) := by
  refine ⟨?_, ?_, ?_⟩
  · intro before generation document r
    exact ⟨isSome_present_calls_iff scheme before generation document, present_eq_self⟩
  · intro before generation document later r final hshown hlive hrest
    show ((ofScheme scheme).calls _).host.loadedDocument? = some document
    rw [calls_append, calls_cons]
    exact loadedDocument?_calls (accounts_calls scheme before) hshown hlive hrest
  · intro builds arrival hnodup hperm newest hmem hmax
    have hdistinct := (hperm.map Prod.fst).nodup_iff.mpr hnodup
    exact loadedDocument?_of_newest scheme hdistinct (hperm.mem_iff.mpr hmem)
      fun x hx => hmax x (hperm.mem_iff.mp hx)

/-- A document of the same build is shown again after a teardown, and an older one is
    dropped; and of three builds that arrive in another order the newest is seen. -/
theorem newest_is_seen_after_teardown :
    let before := [.present 7 "<p>7</p>", .present 3 "<p>3</p>", .teardown]
    let later := [.present 6 "<p>6</p>"]
    let r := (ofScheme "blob:preview").calls before
    let again := (ofScheme "blob:preview").calls (before ++ .present 7 "<b>7</b>" :: later)
    let builds := [(2, "<p>2</p>"), (4, "<p>4</p>"), (9, "<p>9</p>")]
    let arrival := [(4, "<p>4</p>"), (9, "<p>9</p>"), (2, "<p>2</p>")]
    let final := (ofScheme "blob:preview").calls (arrival.map fun x => .present x.1 x.2)
    ((r.present 7 "<b>7</b>").1.isSome ∧ (r.present 7 "<b>7</b>").2.shown later = [] ∧
        again.host.loadedDocument? = some "<b>7</b>") ∧
      (builds.map Prod.fst).Nodup ∧ arrival.Perm builds ∧
        final.host.loadedDocument? = some "<p>9</p>" := by
  intro before later r again builds arrival final
  obtain ⟨hiff, hseen, hnewest⟩ := newest_is_seen "blob:preview"
  have hshown := (hiff before 7 "<b>7</b>").1.mpr (by decide)
  have hrest : (r.present 7 "<b>7</b>").2.shown later = [] := by decide
  have hnodup : (builds.map Prod.fst).Nodup := by decide
  have hperm : arrival.Perm builds := by decide
  exact ⟨⟨hshown, hrest, hseen before 7 "<b>7</b>" later hshown (by decide) hrest⟩, hnodup, hperm,
    hnewest builds arrival hnodup hperm (9, "<p>9</p>") (by decide) (by decide)⟩

/-! ## One live document -/

/-- On any surface and after any calls: the urls that were given out are all different,
    and they are those released, in order, and behind them the live one.  While a url is
    live, its document is the only one on the surface and the url is the loaded one;
    otherwise the surface has no document and none is seen. -/
theorem one_live_document (scheme : String) (todo : List Call) :
    let r := (ofScheme scheme).calls todo
    let docs := (ofScheme scheme).shown todo
    (docs.map Prod.fst).Nodup ∧
      docs.map Prod.fst = r.host.released ++ r.current.toList ∧
      match r.current with
      | some url => r.host.live = 1 ∧ r.host.loaded = some url ∧
          ∃ document, docs.getLast? = some (url, document) ∧
            r.host.resources.entries = [(url, document)]
      | none => r.host.live = 0 ∧ r.host.loadedDocument? = none := by
  intro r docs
  have h : Accounts docs r := accounts_calls scheme todo
  refine ⟨h.nodup, h.urls_eq, ?_⟩
  have hlive := h.live
  split at hlive
  · obtain ⟨document, hlast, hentries, hloaded⟩ := hlive
    exact ⟨by simp [Host.live, Table.size, hentries], hloaded, document, hlast, hentries⟩
  · have hnone : r.host.resources = .empty := Table.ext hlive
    refine ⟨by simp [Host.live, Table.size, hlive], ?_⟩
    rw [Host.loadedDocument?, hnone]
    cases r.host.loaded <;> rfl

end LivePreview.Runner
