/-
  LivePreview.Proofs.Resolution

  Where imports lead when keys come and go.

  What is found for a specifier are its candidates that are keys, each once and in their order
  (`Resolution.hits_find`, `nodup_candidates`); the order of the keys does not matter
  (`find_congr`).  A further key that is a candidate comes in at its place and moves nothing
  else (`find_of_adds`).  An import of a file in the folder of its importer leads there by its
  whole name, unless the two lie right behind a slash at the front (`find_sibling`).
-/

import LivePreview.Proofs.Editing
import LivePreview.Resolution
import Mathlib.Data.List.Nodup

namespace LivePreview

namespace Project

variable {p q : Project} {k : String}

/-- The second project has the keys of the first one and a new key. -/
structure Adds (p : Project) (k : String) (q : Project) : Prop where
  not_mem : k ∉ p.paths
  mem_iff : ∀ l, l ∈ q.paths ↔ l = k ∨ l ∈ p.paths

theorem adds_upsert (h : k ∉ p.paths) (content : Option String) :
    p.Adds k (p.upsert k content) :=
  ⟨h, fun _ => Table.mem_keys_put⟩

/-- A key that was added can be deleted, and then the keys are those from before. -/
theorem Adds.exists_delete? (h : p.Adds k q) :
    ∃ r, q.delete? k = some r ∧ ∀ l, l ∈ r.paths ↔ l ∈ p.paths := by
  cases hdelete : q.delete? k with
  | none => exact absurd ((h.mem_iff k).mpr (.inl rfl)) (delete?_eq_none hdelete)
  | some r =>
    refine ⟨r, rfl, fun l => ?_⟩
    rw [paths, files_of_delete? hdelete, Table.keys_erase, List.mem_filter, bne_iff_ne,
      ← paths, h.mem_iff]
    constructor
    · rintro ⟨hl, hne⟩
      exact hl.resolve_left hne
    · intro hl
      exact ⟨.inr hl, fun heq => h.not_mem (heq ▸ hl)⟩

end Project

namespace Resolution

variable {p q : Project} {importer specifier k : String}

/-! ## Candidates -/

/-- The candidates of a specifier are all different. -/
theorem nodup_candidates (importer specifier : String) :
    (candidates importer specifier).Nodup := by
  unfold candidates
  cases relative? specifier with
  | none => exact List.nodup_nil
  | some rest =>
    dsimp only
    generalize beside importer rest = base
    refine List.nodup_cons.mpr ⟨?_, ?_⟩
    · -- The others are longer.
      intro hmem
      obtain ⟨extension, -, heq⟩ := List.mem_map.mp hmem
      have hlength := congrArg (fun s => s.toList.length) heq
      simp at hlength
    · refine List.Nodup.map_on ?_ (by decide)
      intro s _ t _ heq
      have hlist := congrArg String.toList heq
      simp only [String.toList_append] at hlist
      exact String.toList_inj.mp (List.append_cancel_left hlist)

/-- The outcome depends on nothing but which candidates are keys. -/
theorem find_congr (h : ∀ l ∈ candidates importer specifier, l ∈ q.paths ↔ l ∈ p.paths) :
    find q importer specifier = find p importer specifier := by
  refine congrArg ofHits (List.filter_congr fun l hl => ?_)
  rw [Bool.eq_iff_iff, Project.contains, Project.contains, Table.contains_iff_mem_keys,
    Table.contains_iff_mem_keys]
  exact h l hl

theorem hits_eq_filter_mem (p : Project) (importer specifier : String) :
    (find p importer specifier).hits =
      (candidates importer specifier).filter fun l => decide (l ∈ p.paths) := by
  rw [hits_find]
  refine List.filter_congr fun l _ => ?_
  rw [Bool.eq_iff_iff, decide_eq_true_iff]
  exact Table.contains_iff_mem_keys

@[simp] theorem ofHits_hits (r : Resolution) : ofHits r.hits = r := by
  cases r <;> rfl

/-! ## A further key -/

section Adding

variable {before after : List String}

/-- The candidates around one of them are others, and stand on one side of it. -/
theorem not_mem_of_split (hsplit : candidates importer specifier = before ++ k :: after) :
    (k ∉ before ∧ k ∉ after) ∧ ∀ l ∈ before, l ∉ after := by
  have hnodup := nodup_candidates importer specifier
  rw [hsplit, List.nodup_middle, List.nodup_cons, List.mem_append, not_or,
    List.nodup_append] at hnodup
  exact ⟨hnodup.1, fun l hl hl' => hnodup.2.2.2 l hl l hl' rfl⟩

/-- The keys among the candidates, before and after a candidate is added to the keys. -/
theorem hits_of_adds (h : p.Adds k q)
    (hsplit : candidates importer specifier = before ++ k :: after) :
    ∃ earlier later, (∀ l ∈ earlier, l ∈ before) ∧ (∀ l ∈ later, l ∈ after) ∧
      (find p importer specifier).hits = earlier ++ later ∧
        (find q importer specifier).hits = earlier ++ k :: later := by
  obtain ⟨⟨hbefore, hafter⟩, -⟩ := not_mem_of_split hsplit
  -- The candidates on both sides are keys if they were.
  have hothers : ∀ part : List String, k ∉ part →
      (part.filter fun l => decide (l ∈ q.paths)) = part.filter fun l => decide (l ∈ p.paths) := by
    intro part hk
    refine List.filter_congr fun l hl => decide_eq_decide.mpr ((h.mem_iff l).trans ?_)
    exact or_iff_right fun heq => hk (heq ▸ hl)
  have hnew : decide (k ∈ q.paths) = true := decide_eq_true ((h.mem_iff k).mpr (.inl rfl))
  have hold : ¬ decide (k ∈ p.paths) = true := by simpa using h.not_mem
  refine ⟨before.filter fun l => decide (l ∈ p.paths), after.filter fun l => decide (l ∈ p.paths),
    fun l => List.mem_of_mem_filter, fun l => List.mem_of_mem_filter, ?_, ?_⟩
  · rw [hits_eq_filter_mem, hsplit, List.filter_append, List.filter_cons, if_neg hold]
  · rw [hits_eq_filter_mem, hsplit, List.filter_append, List.filter_cons, if_pos hnew,
      hothers before hbefore, hothers after hafter]

/-- A candidate that comes before everything that was found wins over it. -/
theorem find_of_adds_first (h : p.Adds k q)
    (hsplit : candidates importer specifier = before ++ k :: after)
    (hafter : ∀ path, (find p importer specifier).path? = some path → path ∈ after) :
    find q importer specifier = .resolved k (find p importer specifier).hits := by
  obtain ⟨earlier, later, hearlier, -, hp, hq⟩ := hits_of_adds h hsplit
  have hnone : earlier = [] := by
    cases earlier with
    | nil => rfl
    | cons path earlier =>
      have hpath : (find p importer specifier).path? = some path := by
        rw [← ofHits_hits (find p importer specifier), path?_ofHits, hp]
        rfl
      exact absurd (hafter path hpath)
        ((not_mem_of_split hsplit).2 path (hearlier path List.mem_cons_self))
  subst hnone
  rw [← ofHits_hits (find q importer specifier), hq, hp]
  rfl

/-- A candidate that comes behind the winner is shadowed, at its place. -/
theorem find_of_adds_later (h : p.Adds k q)
    (hsplit : candidates importer specifier = before ++ k :: after) {path : String}
    {shadowed : List String} (hfind : find p importer specifier = .resolved path shadowed)
    (hbefore : path ∈ before) :
    ∃ earlier later, shadowed = earlier ++ later ∧ (∀ l ∈ earlier, l ∈ before) ∧
      (∀ l ∈ later, l ∈ after) ∧
        find q importer specifier = .resolved path (earlier ++ k :: later) := by
  obtain ⟨earlier, later, hearlier, hlater, hp, hq⟩ := hits_of_adds h hsplit
  rw [hfind, hits] at hp
  cases earlier with
  | nil =>
    -- The winner would stand on both sides of the new key.
    rw [List.nil_append] at hp
    exact absurd (hlater path (hp ▸ List.mem_cons_self)) ((not_mem_of_split hsplit).2 path hbefore)
  | cons first earlier =>
    obtain ⟨rfl, rfl⟩ := List.cons.inj hp
    refine ⟨earlier, later, rfl, fun l hl => hearlier l (List.mem_cons_of_mem _ hl), hlater, ?_⟩
    rw [← ofHits_hits (find q importer specifier), hq]
    rfl

end Adding

/-- What is found are the candidates that are keys, each once, in the order of the candidates and
    whatever the order of the keys.  A further key that is no candidate changes nothing.  One
    that is a candidate wins if nothing was found or the winner comes behind it, and what was
    found is shadowed then; otherwise the winner stays and the key is among the shadowed ones, at
    its place.  Deleting the key undoes all this. -/
theorem find_of_adds (p : Project) (importer specifier : String) :
    let found := find p importer specifier
    (found.hits.Nodup ∧
        found.hits = (candidates importer specifier).filter fun l => decide (l ∈ p.paths)) ∧
      (∀ q : Project, (∀ l, l ∈ q.paths ↔ l ∈ p.paths) → find q importer specifier = found) ∧
      ∀ k q, p.Adds k q →
        (k ∉ candidates importer specifier → find q importer specifier = found) ∧
        (∀ before after, candidates importer specifier = before ++ k :: after →
          ((∀ path, found.path? = some path → path ∈ after) →
            find q importer specifier = .resolved k found.hits) ∧
          ∀ path shadowed, found = .resolved path shadowed → path ∈ before →
            ∃ earlier later, shadowed = earlier ++ later ∧ (∀ l ∈ earlier, l ∈ before) ∧
              (∀ l ∈ later, l ∈ after) ∧
                find q importer specifier = .resolved path (earlier ++ k :: later)) ∧
        ∃ r, q.delete? k = some r ∧ find r importer specifier = found := by
  intro found
  have hhits := hits_eq_filter_mem p importer specifier
  refine ⟨⟨?_, hhits⟩, fun q hq => find_congr fun l _ => hq l, fun k q h => ⟨?_, ?_, ?_⟩⟩
  · rw [hhits]
    exact (nodup_candidates importer specifier).filter _
  · intro hk
    refine find_congr fun l hl => (h.mem_iff l).trans (or_iff_right ?_)
    rintro rfl
    exact hk hl
  · intro before after hsplit
    exact ⟨find_of_adds_first h hsplit, fun path shadowed => find_of_adds_later h hsplit⟩
  · obtain ⟨r, hdelete, hpaths⟩ := h.exists_delete?
    exact ⟨r, hdelete, find_congr fun l _ => hpaths l⟩

/-- An importer and two files that one specifier can mean. -/
def twoMeanings : Project := .ofFiles [("ui/a.js", ""), ("ui/b.tsx", ""), ("ui/b.jsx", "")]

/-- A candidate that comes between the two, then one that comes before both and is deleted
    again. -/
theorem find_of_adds_twoMeanings :
    let between := twoMeanings.upsert "ui/b.ts" none
    let first := between.upsert "ui/b" none
    (twoMeanings.Adds "ui/b.ts" between ∧
        find between "ui/a.js" "./b" = .resolved "ui/b.jsx" ["ui/b.ts", "ui/b.tsx"]) ∧
      (between.Adds "ui/b" first ∧
        find first "ui/a.js" "./b" = .resolved "ui/b" ["ui/b.jsx", "ui/b.ts", "ui/b.tsx"]) ∧
      ∃ p, first.delete? "ui/b" = some p ∧
        find p "ui/a.js" "./b" = .resolved "ui/b.jsx" ["ui/b.ts", "ui/b.tsx"] := by
  intro between first
  have hbetween : twoMeanings.Adds "ui/b.ts" between := Project.adds_upsert (by decide) none
  have hfirst : between.Adds "ui/b" first := Project.adds_upsert (by decide) none
  have hold : find twoMeanings "ui/a.js" "./b" = .resolved "ui/b.jsx" ["ui/b.tsx"] := by decide
  have hthree : find between "ui/a.js" "./b" = .resolved "ui/b.jsx" ["ui/b.ts", "ui/b.tsx"] := by
    obtain ⟨-, -, hadds⟩ := find_of_adds twoMeanings "ui/a.js" "./b"
    obtain ⟨earlier, later, hshadowed, hearlier, -, hfind⟩ :=
      ((hadds _ _ hbetween).2.1 ["ui/b", "ui/b.js", "ui/b.jsx"] ["ui/b.tsx"] (by decide)).2
        _ _ hold (by decide)
    cases earlier with
    | nil => rw [hfind, hshadowed, List.nil_append, List.nil_append]
    | cons path earlier =>
      obtain ⟨rfl, -⟩ := List.cons.inj hshadowed
      exact absurd (hearlier _ List.mem_cons_self) (by decide)
  obtain ⟨-, -, hadds⟩ := find_of_adds between "ui/a.js" "./b"
  obtain ⟨-, hcandidate, p, hdelete, hp⟩ := hadds _ _ hfirst
  have hwins : ∀ path, (find between "ui/a.js" "./b").path? = some path →
      path ∈ ["ui/b.js", "ui/b.jsx", "ui/b.ts", "ui/b.tsx"] := by
    rw [hthree]
    rintro path hpath
    cases hpath
    decide
  have hfour := (hcandidate [] _ (by decide)).1 hwins
  rw [hthree] at hfour hp
  exact ⟨⟨hbetween, hthree⟩, ⟨hfirst, hfour⟩, p, hdelete, hp⟩

/-! ## Files side by side -/

section Sibling

variable {folder f g : String}

theorem parent_of_isSegment (hf : Path.IsSegment f) : Path.parent f = "" := by
  rw [Path.parent, Text.splitLast_eq_none_iff.mpr hf.2]

theorem parent_append_slash (hf : Path.IsSegment f) (folder : String) :
    Path.parent (folder ++ "/" ++ f) = folder := by
  rw [Path.parent, Path.splitLast_append_slash hf.2]
  exact String.ofList_toList

theorem exists_of_getLast?_slash (h : folder.toList.getLast? = some '/') :
    ∃ d, folder = d ++ "/" := by
  obtain ⟨d, hd⟩ := List.getLast?_eq_some_iff.mp h
  exact ⟨String.ofList d, String.toList_inj.mp (by simp [hd])⟩

/-- What lies beside a file is in its folder, except for the folder before a slash at the
    front. -/
theorem beside_append (hfolder : folder = "" ∨ folder.toList.getLast? = some '/')
    (hf : Path.IsSegment f) (rest : String) :
    beside (folder ++ f) rest = if folder = "/" then rest else folder ++ rest := by
  unfold beside
  rcases hfolder with rfl | hslash
  · rw [String.empty_append, parent_of_isSegment hf, if_pos (by decide), if_neg (by decide),
      String.empty_append]
  · obtain ⟨d, rfl⟩ := exists_of_getLast?_slash hslash
    rw [parent_append_slash hf]
    by_cases hd : d = ""
    · subst hd
      rfl
    · have hne : d ++ "/" ≠ "/" := by
        intro heq
        refine hd (String.toList_inj.mp ?_)
        have hlist := congrArg String.toList heq
        rw [String.toList_append] at hlist
        exact List.append_left_eq_self.mp hlist
      rw [if_neg hne, if_neg (by simpa using hd)]

theorem relative?_append (rest : String) : relative? ("./" ++ rest) = some rest := by
  have hlist : ("./" ++ rest).toList = '.' :: '/' :: rest.toList := by
    rw [String.toList_append]
    rfl
  simp [relative?, hlist]

/-- The candidates of a relative specifier. -/
theorem candidates_relative (importer rest : String) :
    candidates importer ("./" ++ rest) =
      beside importer rest :: Path.scriptExtensions.map (beside importer rest ++ "." ++ ·) := by
  rw [candidates, relative?_append]

/-- All candidates begin with the path beside the importer. -/
theorem isPrefix_of_mem_candidates {importer rest l : String}
    (h : l ∈ candidates importer ("./" ++ rest)) : (beside importer rest).toList <+: l.toList := by
  rw [candidates_relative, List.mem_cons, List.mem_map] at h
  rcases h with rfl | ⟨extension, -, rfl⟩
  · exact List.prefix_refl _
  · rw [String.toList_append, String.toList_append, List.append_assoc]
    exact List.prefix_append _ _

/-- The path beside the importer is tried first. -/
theorem find_beside {importer rest : String} (h : beside importer rest ∈ p.paths) :
    ∃ shadowed, find p importer ("./" ++ rest) = .resolved (beside importer rest) shadowed := by
  have hcontains : p.contains (beside importer rest) = true :=
    Table.contains_iff_mem_keys.mpr h
  rw [find, candidates_relative, List.filter_cons, if_pos hcontains]
  exact ⟨_, rfl⟩

/-- An import of a file in the folder of the importer, by its name, leads to that file, unless
    the folder is a slash at the front and nothing else: from there an import is looked up as if
    the importer stood outside of all folders, and does not lead to the file. -/
theorem find_sibling (p : Project) (hfolder : folder = "" ∨ folder.toList.getLast? = some '/')
    (hf : Path.IsSegment f) (hg : Path.IsSegment g) (hkey : folder ++ g ∈ p.paths) :
    ((∃ shadowed, find p (folder ++ f) ("./" ++ g) = .resolved (folder ++ g) shadowed) ↔
        folder ≠ "/") ∧
      (folder = "/" → find p (folder ++ f) ("./" ++ g) = find p f ("./" ++ g)) := by
  have hbeside := beside_append hfolder hf g
  refine ⟨⟨?_, ?_⟩, ?_⟩
  · rintro ⟨shadowed, hfind⟩ rfl
    have hmem : "/" ++ g ∈ candidates ("/" ++ f) ("./" ++ g) := by
      have hhits := hits_find p ("/" ++ f) ("./" ++ g)
      rw [hfind] at hhits
      refine List.mem_of_mem_filter (p := p.contains) ?_
      rw [← hhits]
      exact List.mem_cons_self
    -- All candidates begin with `g`, which holds no slash.
    have hpre := isPrefix_of_mem_candidates hmem
    rw [hbeside, if_pos rfl, String.toList_append] at hpre
    cases hchars : g.toList with
    | nil => exact hg.1 (String.toList_inj.mp hchars)
    | cons c cs =>
      rw [hchars] at hpre
      obtain ⟨rfl, -⟩ := List.cons_prefix_cons.mp hpre
      exact hg.2 (hchars ▸ List.mem_cons_self)
  · intro hne
    rw [if_neg hne] at hbeside
    rw [← hbeside] at hkey ⊢
    exact find_beside hkey
  · rintro rfl
    have hroot : beside f g = g := by
      have hempty : "" = "" ∨ "".toList.getLast? = some '/' := .inl rfl
      have h := beside_append hempty hf g
      rwa [if_neg (by decide), String.empty_append, String.empty_append] at h
    rw [find, find, candidates_relative, candidates_relative, hbeside, hroot, if_pos rfl]

/-- Two files behind two slashes. -/
theorem find_sibling_twoSlashes :
    let p := Project.ofFiles [("//a.js", ""), ("//b.js", ""), ("//b.js.ts", "")]
    ("//".toList.getLast? = some '/' ∧ Path.IsSegment "a.js" ∧ Path.IsSegment "b.js" ∧
        "//b.js" ∈ p.paths) ∧
      ∃ shadowed, find p "//a.js" "./b.js" = .resolved "//b.js" shadowed := by
  intro p
  have ha : Path.IsSegment "a.js" := ⟨by decide, by decide⟩
  have hb : Path.IsSegment "b.js" := ⟨by decide, by decide⟩
  have hkey : "//" ++ "b.js" ∈ p.paths := by decide
  have hend : "//".toList.getLast? = some '/' := by decide
  have hsibling := find_sibling p (.inr hend) ha hb hkey
  exact ⟨⟨hend, ha, hb, hkey⟩, hsibling.1.mpr (by decide)⟩

/-- Two files behind one slash, of which one does not find the other. -/
theorem exists_unresolved_sibling :
    let p := Project.ofFiles [("/a.js", ""), ("/b.js", "")]
    "/a.js" ∈ p.paths ∧ "/b.js" ∈ p.paths ∧ find p "/a.js" "./b.js" = .unresolved := by
  decide

end Sibling

end Resolution

end LivePreview
