/-
  LivePreview.Proofs.HostRuns

  What becomes of the documents of a surface while documents are created and urls are
  loaded and released in any order, also urls that were released before or that the
  surface never gave out.

  `Host.Accounts` says where the documents are: each has a url of its own, no url was
  released twice or without being given out, and the documents of the other urls are
  live.  It holds on an empty surface, every call keeps it (`Accounts.call`), so it holds
  after a run (`accounts_calls`).  Which urls were released in a run, and which one was
  loaded last, can be read off its calls (`Accounts.mem_released_calls_iff`,
  `loaded_calls`).
-/

import LivePreview.Proofs.Surface
import Mathlib.Data.List.Nodup

namespace LivePreview.Host

/-! ## Runs -/

/-- What can be asked of a surface. -/
inductive Call where
  | create (document : String)
  | load (url : String)
  | release (url : String)
deriving DecidableEq

/-- The surface after a call. -/
def call (h : Host) : Call → Host
  | .create document => (h.create document).2
  | .load url => h.load url
  | .release url => h.release url

/-- The surface after some calls. -/
def calls (h : Host) (todo : List Call) : Host := todo.foldl call h

/-- The document that a call creates, with the url given out for it. -/
def createdBy (h : Host) : Call → List (String × String)
  | .create document => [((h.create document).1, document)]
  | .load _ => []
  | .release _ => []

/-- The documents created in a run with their urls, in order. -/
def created (h : Host) : List Call → List (String × String)
  | [] => []
  | c :: rest => h.createdBy c ++ (h.call c).created rest

/-- The urls loaded in a run, in order. -/
def loads (todo : List Call) : List String :=
  todo.filterMap fun
    | .create _ => none
    | .load url => some url
    | .release _ => none

theorem calls_cons (h : Host) (c : Call) (rest : List Call) :
    h.calls (c :: rest) = (h.call c).calls rest := rfl

/-! ## Loading -/

/-- Only loading changes which url is loaded. -/
theorem loaded_call (h : Host) (c : Call) : (h.call c).loaded = (loads [c]).head?.or h.loaded := by
  cases c with
  | create document => rfl
  | load url => rfl
  | release url => simp [call, loads]

/-- After a run the url loaded last is loaded, or the one from before if there is none. -/
theorem loaded_calls (h : Host) (todo : List Call) :
    (h.calls todo).loaded = (loads todo).getLast?.or h.loaded := by
  induction todo generalizing h with
  | nil => rfl
  | cons c rest ih =>
    have hcons : loads (c :: rest) = loads [c] ++ loads rest := by
      cases c <;> rfl
    have hone : (loads [c]).head? = (loads [c]).getLast? := by
      cases c <;> rfl
    rw [calls_cons, ih, loaded_call, hone, hcons, List.getLast?_append, Option.or_assoc]

/-! ## Where the documents are -/

/-- These documents were created, each under a url of its own, and they are live but for
    those that were released, each once. -/
structure Accounts (docs : List (String × String)) (h : Host) : Prop extends GaveOut docs h where
  nodup_released : h.released.Nodup
  released_subset : h.released ⊆ docs.map Prod.fst
  live : h.resources.entries = docs.filter (·.1 ∉ h.released)

theorem accounts_ofScheme (scheme : String) : Accounts [] (ofScheme scheme) :=
  ⟨⟨by simp, List.nodup_nil⟩, List.nodup_nil, List.nil_subset _, rfl⟩

section Accounts

variable {docs : List (String × String)} {h : Host}

/-- A url is live if it was given out and not released. -/
theorem Accounts.mem_keys_iff (ha : Accounts docs h) {url : String} :
    url ∈ h.resources.keys ↔ url ∈ docs.map Prod.fst ∧ url ∉ h.released := by
  simp only [Table.keys, ha.live, List.mem_map, List.mem_filter, decide_eq_true_eq]
  constructor
  · rintro ⟨x, ⟨hx, hlive⟩, rfl⟩
    exact ⟨⟨x, hx, rfl⟩, hlive⟩
  · rintro ⟨⟨x, hx, rfl⟩, hlive⟩
    exact ⟨x, ⟨hx, hlive⟩, rfl⟩

/-- The document of a url is there if it was created under it and not released. -/
theorem Accounts.get?_eq_some_iff (ha : Accounts docs h) {url document : String} :
    h.resources.get? url = some document ↔ (url, document) ∈ docs ∧ url ∉ h.released := by
  rw [Table.get?_eq_some_iff, ha.live, List.mem_filter, decide_eq_true_eq]

/-- Every url given out is either live or released. -/
theorem Accounts.live_add_released (ha : Accounts docs h) :
    h.live + h.released.length = docs.length := by
  have hreleased : ((docs.map Prod.fst).filter (· ∈ h.released)).Perm h.released := by
    refine (List.perm_ext_iff_of_nodup (ha.nodup.filter _) ha.nodup_released).mpr fun url => ?_
    rw [List.mem_filter, decide_eq_true_eq]
    exact and_iff_right_of_imp fun hmem => ha.released_subset hmem
  have hcount := hreleased.length_eq
  rw [List.filter_map, List.length_map] at hcount
  have hlive : h.live = (docs.filter (·.1 ∉ h.released)).length := by
    rw [Host.live, Table.size, ha.live]
  have hsplit := List.length_eq_length_filter_add (l := docs) (·.1 ∈ h.released)
  simp only [Function.comp_def, ← decide_not] at hcount hsplit
  omega

/-- A new document is live beside the others. -/
theorem Accounts.create (ha : Accounts docs h) (document : String) :
    Accounts (docs ++ [((h.create document).1, document)]) (h.create document).2 := by
  -- The new url was never given out, so it is neither live nor released.
  have hnew : (h.create document).1 ∉ docs.map Prod.fst := ha.next_not_mem document
  have hunreleased : (h.create document).1 ∉ h.released := fun hmem =>
    hnew (ha.released_subset hmem)
  have hkey : (h.create document).1 ∉ h.resources.keys := fun hmem =>
    hnew (ha.mem_keys_iff.mp hmem).1
  refine ⟨ha.toGaveOut.create document, ha.nodup_released, ?_, ?_⟩
  · rw [List.map_append]
    exact List.subset_append_of_subset_left _ ha.released_subset
  · have hentries : (h.create document).2.resources.entries =
        h.resources.entries ++ [((h.create document).1, document)] :=
      Table.entries_put_of_not_mem hkey document
    have hsame : (h.create document).2.released = h.released := rfl
    rw [hentries, hsame, List.filter_append, ha.live]
    simp [hunreleased]

/-- Releasing a url that is not live changes nothing; a live one goes from the documents
    to the released. -/
theorem Accounts.release (ha : Accounts docs h) (url : String) : Accounts docs (h.release url) := by
  unfold Host.release
  split
  · next hcontains =>
    obtain ⟨hmem, hunreleased⟩ := ha.mem_keys_iff.mp (Table.contains_iff_mem_keys.mp hcontains)
    refine ⟨ha.toGaveOut.congr rfl rfl, ?_, ?_, ?_⟩
    · exact ha.nodup_released.append (List.nodup_singleton url)
        (List.disjoint_singleton.mpr hunreleased)
    · exact List.append_subset.mpr ⟨ha.released_subset,
        List.cons_subset.mpr ⟨hmem, List.nil_subset _⟩⟩
    · rw [Table.entries_erase, ha.live, List.filter_filter]
      refine List.filter_congr fun x _ => Bool.eq_iff_iff.mpr ?_
      simp [and_comm]
  · exact ha

/-- Every call keeps the account. -/
theorem Accounts.call (ha : Accounts docs h) (c : Call) :
    Accounts (docs ++ h.createdBy c) (h.call c) := by
  cases c with
  | create document => exact ha.create document
  | load url =>
    rw [createdBy, List.append_nil]
    exact ⟨ha.toGaveOut.congr rfl rfl, ha.nodup_released, ha.released_subset, ha.live⟩
  | release url =>
    rw [createdBy, List.append_nil]
    exact ha.release url

theorem Accounts.calls (ha : Accounts docs h) (todo : List Call) :
    Accounts (docs ++ h.created todo) (h.calls todo) := by
  induction todo generalizing docs h with
  | nil => simpa [created, Host.calls] using ha
  | cons c rest ih =>
    rw [created, ← List.append_assoc]
    exact ih (ha.call c)

/-! ## Which urls are released -/

/-- A call releases a url if that was given out before, and no other way. -/
theorem Accounts.mem_released_call_iff (ha : Accounts docs h) {c : Call} {url : String} :
    url ∈ (h.call c).released ↔
      url ∈ h.released ∨ c = .release url ∧ url ∈ docs.map Prod.fst := by
  cases c with
  | create document => simp [Host.call, Host.create]
  | load other => simp [Host.call, Host.load]
  | release other =>
    rw [Host.call, Host.release, Call.release.injEq]
    split
    · next hcontains =>
      have hmem := (ha.mem_keys_iff.mp (Table.contains_iff_mem_keys.mp hcontains)).1
      rw [List.mem_append, List.mem_singleton]
      refine or_congr_right ⟨?_, fun hother => hother.1.symm⟩
      rintro rfl
      exact ⟨rfl, hmem⟩
    · next hcontains =>
      -- The url was given out and is not live, so it was released before.
      refine ⟨.inl, ?_⟩
      rintro (hreleased | ⟨rfl, hmem⟩)
      · exact hreleased
      · by_contra hunreleased
        exact hcontains (Table.contains_iff_mem_keys.mpr (ha.mem_keys_iff.mpr ⟨hmem, hunreleased⟩))

/-- A run releases the urls that it asks to release after they were given out. -/
theorem Accounts.mem_released_calls_iff (ha : Accounts docs h) {todo : List Call} {url : String} :
    url ∈ (h.calls todo).released ↔ url ∈ h.released ∨ ∃ before after,
      todo = before ++ .release url :: after ∧ url ∈ (docs ++ h.created before).map Prod.fst := by
  induction todo generalizing docs h with
  | nil => simp [Host.calls]
  | cons c rest ih =>
    rw [calls_cons, ih (ha.call c), ha.mem_released_call_iff, or_assoc]
    refine or_congr_right ⟨?_, ?_⟩
    · rintro (⟨rfl, hmem⟩ | ⟨before, after, rfl, hmem⟩)
      · exact ⟨[], rest, rfl, by simpa [created] using hmem⟩
      · exact ⟨c :: before, after, rfl, by rwa [created, ← List.append_assoc]⟩
    · rintro ⟨before, after, htodo, hmem⟩
      rcases List.cons_eq_append_iff.mp htodo with ⟨rfl, hhead⟩ | ⟨before, rfl, hrest⟩
      · rw [List.cons.injEq] at hhead
        exact .inl ⟨hhead.1.symm, by simpa [created] using hmem⟩
      · rw [created, ← List.append_assoc] at hmem
        exact .inr ⟨before, after, hrest, hmem⟩

end Accounts

/-- After a run the documents created in it are accounted for. -/
theorem accounts_calls (scheme : String) (todo : List Call) :
    Accounts ((ofScheme scheme).created todo) ((ofScheme scheme).calls todo) :=
  (accounts_ofScheme scheme).calls todo

/-- On any surface and after any calls, also for urls that the surface never gave out: the
    urls given out are all different.  No url was released twice, and those released are
    the ones that the run asked to release after they were given out.  The documents live
    are those of the other urls, each the one it was created with.  The document of the url
    loaded last is seen exactly while that url is live. -/
theorem live_unless_released (scheme : String) (todo : List Call) :
    let h := (ofScheme scheme).calls todo
    let docs := (ofScheme scheme).created todo
    (docs.map Prod.fst).Nodup ∧
      (h.released.Nodup ∧ ∀ url, url ∈ h.released ↔ ∃ before after,
        todo = before ++ .release url :: after ∧
          url ∈ ((ofScheme scheme).created before).map Prod.fst) ∧
      h.resources.entries = docs.filter (·.1 ∉ h.released) ∧
      h.live + h.released.length = docs.length ∧
      h.loaded = (loads todo).getLast? ∧
      (∀ document, h.loadedDocument? = some document ↔ ∃ url,
        (loads todo).getLast? = some url ∧ (url, document) ∈ docs ∧ url ∉ h.released) := by
  intro h docs
  have ha : Accounts docs h := accounts_calls scheme todo
  have hloaded : h.loaded = (loads todo).getLast? := by
    rw [loaded_calls, ofScheme, Option.or_none]
  refine ⟨ha.nodup, ⟨ha.nodup_released, fun url => ?_⟩, ha.live, ha.live_add_released, hloaded,
    fun document => ?_⟩
  · rw [(accounts_ofScheme scheme).mem_released_calls_iff]
    simp [ofScheme]
  · rw [loadedDocument?, hloaded, Option.bind_eq_some_iff]
    simp only [ha.get?_eq_some_iff]

end LivePreview.Host
