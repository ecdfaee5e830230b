/-
  LivePreview.Proofs.EditHistory

  What is stored after a run of edits, and in which order.

  The contents of the keys are told without any order (`Contents.edit`): an edit writes to
  one key, or takes keys away.  A project holds the contents that its edits make
  (`Project.contents_edits`), and its keys stand in the order of the moments at which they
  came in last (`Project.pairwise_earlier`): an edit drops some keys where they stand and adds
  at most one new key at the end (`Project.follows_edit`).
-/

import LivePreview.Proofs.Editing
import Mathlib.Data.List.Induction

namespace LivePreview

/-! ## Contents without an order -/

/-- The content of each key that is present. -/
abbrev Contents : Type := String → Option String

namespace Contents

/-- The contents with a text written to a key. -/
def write (c : Contents) (path text : String) : Contents :=
  fun k => if k = path then some text else c k

/-- The contents without the keys that pass a test. -/
def without (c : Contents) (gone : String → Bool) : Contents :=
  fun k => if gone k then none else c k

/-- The contents after an edit.  Without content, `upsert` writes nothing to a key that is
    present and the empty text to another; `rename` carries the content of the old key to
    the new one. -/
def edit (c : Contents) : Edit → Contents
  | .upsert path (some text) => c.write path text
  | .upsert path none => if (c path).isSome then c else c.write path ""
  | .createFile path =>
    if Text.isBlankText path.toList || (c path).isSome then c else c.write path ""
  | .createFolder path =>
    let folder := Project.folderName path
    if folder.isEmpty || (c (Path.marker folder)).isSome then c
    else c.write (Path.marker folder) ""
  | .delete path => c.without (· == path)
  | .deleteFolder folder => c.without (Path.isWithin folder)
  | .rename source target =>
    match c source with
    | none => c
    | some text => (c.without (· == source)).write target text
  | .setActive _ | .setEntryDocument _ => c

theorem write_eq_self {c : Contents} {path text : String} (h : c path = some text) :
    c.write path text = c := by
  funext k
  by_cases hk : k = path <;> simp [write, hk, h]

theorem without_eq_self {c : Contents} {path : String} (h : c path = none) :
    c.without (· == path) = c := by
  funext k
  by_cases hk : k = path <;> simp [without, hk, h]

end Contents

namespace Project

variable {p : Project} {es : List Edit} {k l : String} {i j : Nat}

/-- The contents of a project. -/
def contents (p : Project) : Contents := fun k => (p.get? k).map File.content

theorem isSome_contents (p : Project) (k : String) : (p.contents k).isSome = p.contains k := by
  simp [contents, contains, get?, Table.contains]

theorem isSome_contents_iff : (p.contents k).isSome = true ↔ k ∈ p.paths := by
  rw [isSome_contents]
  exact Table.contains_iff_mem_keys

theorem contents_of_files_eq_put {q : Project} {path text : String}
    (h : q.files = p.files.put path ⟨path, text⟩) : q.contents = p.contents.write path text := by
  funext k
  by_cases hk : k = path
  · simp [contents, get?, Contents.write, h, hk, Table.get?_put_self]
  · simp [contents, get?, Contents.write, h, hk, Table.get?_put_of_ne hk]

theorem contents_of_files_eq_retain {q : Project} {gone : String → Bool}
    (h : q.files = p.files.retain fun k => !gone k) : q.contents = p.contents.without gone := by
  funext k
  cases hk : gone k <;> simp [contents, get?, Contents.without, h, Table.get?_retain, hk]

theorem contents_upsert (p : Project) (path : String) (content : Option String) :
    (p.upsert path content).contents = p.contents.edit (.upsert path content) := by
  rw [contents_of_files_eq_put (p := p) (q := p.upsert path content) rfl]
  cases content with
  | some text => rfl
  | none =>
    have hcontents : p.contents path = (p.get? path).map File.content := rfl
    cases hget : p.get? path with
    | none => simp [Contents.edit, hcontents, hget]
    | some file =>
      rw [hget, Option.map_some] at hcontents
      simp [Contents.edit, hcontents, Contents.write_eq_self hcontents]

theorem contents_delete? (p : Project) (path : String) :
    (p.orRefused (p.delete? path)).1.contents = p.contents.without (· == path) := by
  cases hdelete : p.delete? path with
  | none =>
    -- Refused, as the key is absent: there is nothing to take away.
    have hnone : p.contents path = none := by
      rw [← Option.not_isSome_iff_eq_none, isSome_contents_iff]
      exact delete?_eq_none hdelete
    exact (Contents.without_eq_self hnone).symm
  | some q => exact contents_of_files_eq_retain (files_of_delete? hdelete)

theorem contents_rename? (p : Project) (source target : String) :
    (p.orRefused (p.rename? source target)).1.contents =
      p.contents.edit (.rename source target) := by
  have hcontents : p.contents source = (p.get? source).map File.content := rfl
  simp only [Contents.edit]
  cases hrename : p.rename? source target with
  | none =>
    rw [hcontents, rename?_eq_none hrename]
    rfl
  | some q =>
    obtain ⟨file, hget, ⟨rfl, rfl⟩ | ⟨-, rfl⟩⟩ := rename?_eq_some hrename
    · -- Onto itself: the key is taken away and its content written back.
      rw [hget] at hcontents
      funext k
      by_cases hk : k = source <;>
        simp [hcontents, orRefused, Contents.write, Contents.without, hk]
    · rw [hcontents, hget]
      have herase : contents { p with files := p.files.erase source } =
          p.contents.without (· == source) :=
        contents_of_files_eq_retain rfl
      rw [← herase]
      exact contents_of_files_eq_put rfl

/-- An edit makes of the contents of a project what it makes of them without an order. -/
theorem contents_edit (p : Project) (e : Edit) :
    (p.edit e).1.contents = p.contents.edit e := by
  cases e with
  | upsert path content => exact contents_upsert p path content
  | createFile path =>
    simp only [edit, createFile?, Contents.edit, isSome_contents]
    split
    · rfl
    · exact contents_upsert p path (some "")
  | createFolder path =>
    simp only [edit, createFolder?, Contents.edit, isSome_contents]
    split
    · rfl
    · exact contents_upsert p (Path.marker (folderName path)) (some "")
  | delete path => exact contents_delete? p path
  | deleteFolder folder => exact contents_of_files_eq_retain (files_deleteFolder p folder)
  | rename source target => exact contents_rename? p source target
  | setActive path => rfl
  | setEntryDocument path => rfl

/-! ## The order of the keys -/

/-- Some keys are gone and the others stand as they did, with at most one new key behind
    them. -/
def Follows (before after : List String) : Prop :=
  ∃ keep fresh, after = before.filter keep ++ fresh ∧ fresh.length ≤ 1 ∧ ∀ k ∈ fresh, k ∉ before

theorem follows_filter (keys : List String) (keep : String → Bool) :
    Follows keys (keys.filter keep) :=
  ⟨keep, [], by simp, by simp, by simp⟩

theorem follows_refl (keys : List String) : Follows keys keys :=
  ⟨fun _ => true, [], by simp, by simp, by simp⟩

theorem follows_put (files : Table File) (path : String) (file : File) :
    Follows files.keys (files.put path file).keys := by
  rw [Table.keys_put]
  split
  · exact follows_refl files.keys
  · next hnew => exact ⟨fun _ => true, [path], by simp, by simp, by simpa using hnew⟩

/-- A file that is moved onto a key that is present leaves that key where it is; another key
    goes to the end. -/
theorem keys_put_erase (files : Table File) {source target : String} (hne : source ≠ target)
    (file : File) : ((files.erase source).put target file).keys =
      if target ∈ files.keys then files.keys.filter (· != source)
      else files.keys.filter (· != source) ++ [target] := by
  have hmem : target ∈ files.keys.filter (· != source) ↔ target ∈ files.keys := by
    simp [Ne.symm hne]
  rw [Table.keys_put, Table.keys_erase]
  exact if_congr hmem rfl rfl

theorem paths_of_rename? {source target : String} {q : Project}
    (h : p.rename? source target = some q) (hne : source ≠ target) :
    q.paths = if target ∈ p.paths then p.paths.filter (· != source)
      else p.paths.filter (· != source) ++ [target] := by
  obtain ⟨file, -, ⟨heq, -⟩ | ⟨-, rfl⟩⟩ := rename?_eq_some h
  · exact absurd heq hne
  · exact keys_put_erase p.files hne _

theorem follows_of_changes {e : Edit} {files after : Table File} (h : e.Changes files after) :
    Follows files.keys after.keys := by
  cases h with
  | kept => exact follows_refl files.keys
  | written _ text => exact follows_put files _ _
  | removed _ keep =>
    rw [Table.keys_retain]
    exact follows_filter files.keys keep
  | @moved source target _ _ hne =>
    rw [keys_put_erase files hne]
    split
    · exact follows_filter files.keys (· != source)
    · next hnew => exact ⟨(· != source), [target], rfl, by simp, by simpa using hnew⟩

theorem follows_edit (p : Project) (e : Edit) : Follows p.paths (p.edit e).1.paths :=
  follows_of_changes (changes_edit p e)

/-! ## Moments -/

/-- The contents after the first `n` of some edits. -/
def contentsAfter (p : Project) (es : List Edit) (n : Nat) : Contents :=
  (es.take n).foldl Contents.edit p.contents

/-- The key came in last at the moment `i`: it has been present from the first `i` edits on,
    and it was absent one edit earlier if there was one.  Moment 0 is the start. -/
def CameIn (p : Project) (es : List Edit) (k : String) (i : Nat) : Prop :=
  i ≤ es.length ∧ (∀ j, i ≤ j → j ≤ es.length → (p.contentsAfter es j k).isSome) ∧
    (i ≠ 0 → p.contentsAfter es (i - 1) k = none)

theorem contents_edits (p : Project) (es : List Edit) :
    (p.edits es).contents = p.contentsAfter es es.length := by
  rw [contentsAfter, List.take_length]
  induction es generalizing p with
  | nil => rfl
  | cons e es ih =>
    rw [edits_cons, ih, contents_edit]
    rfl

theorem edits_append_singleton (p : Project) (es : List Edit) (e : Edit) :
    p.edits (es ++ [e]) = ((p.edits es).edit e).1 := by
  simp [edits]

theorem contentsAfter_append (p : Project) {es : List Edit} {n : Nat} (h : n ≤ es.length)
    (e : Edit) : p.contentsAfter (es ++ [e]) n = p.contentsAfter es n := by
  rw [contentsAfter, contentsAfter, List.take_append_of_le_length h]

/-- A key that was present when the last edit came has come in before it. -/
theorem cameIn_append_iff_of_isSome {e : Edit} (h : (p.contentsAfter es es.length k).isSome) :
    p.CameIn (es ++ [e]) k i ↔
      (p.contentsAfter (es ++ [e]) (es.length + 1) k).isSome ∧ p.CameIn es k i := by
  have hlength : (es ++ [e]).length = es.length + 1 := by simp
  have hbefore : ∀ j, j ≤ es.length → p.contentsAfter (es ++ [e]) j = p.contentsAfter es j :=
    fun j hj => contentsAfter_append p hj e
  unfold CameIn
  rw [hlength]
  constructor
  · rintro ⟨hle, hpresent, habsent⟩
    -- It did not come in with the last edit, or it would have been absent before.
    have hi : i ≤ es.length := by
      by_contra hgt
      have heq : i = es.length + 1 := by omega
      have hnone := habsent (by omega)
      rw [heq, Nat.add_sub_cancel, hbefore _ (Nat.le_refl _)] at hnone
      simp [hnone] at h
    refine ⟨hpresent _ hle (Nat.le_refl _), hi, fun j hij hj => ?_, fun hne => ?_⟩
    · rw [← hbefore j hj]
      exact hpresent j hij (by omega)
    · rw [← hbefore (i - 1) (by omega)]
      exact habsent hne
  · rintro ⟨hnow, hle, hpresent, habsent⟩
    refine ⟨by omega, fun j hij hj => ?_, fun hne => ?_⟩
    · by_cases hj' : j ≤ es.length
      · rw [hbefore j hj']
        exact hpresent j hij hj'
      · rwa [show j = es.length + 1 by omega]
    · rw [hbefore (i - 1) (by omega)]
      exact habsent hne

/-- A key that was absent then comes in with the last edit or not at all. -/
theorem cameIn_append_iff_of_eq_none {e : Edit} (h : p.contentsAfter es es.length k = none) :
    p.CameIn (es ++ [e]) k i ↔
      (p.contentsAfter (es ++ [e]) (es.length + 1) k).isSome ∧ i = es.length + 1 := by
  have hlength : (es ++ [e]).length = es.length + 1 := by simp
  have hbefore : p.contentsAfter (es ++ [e]) es.length = p.contentsAfter es es.length :=
    contentsAfter_append p (Nat.le_refl _) e
  unfold CameIn
  rw [hlength]
  constructor
  · rintro ⟨hle, hpresent, -⟩
    refine ⟨hpresent _ hle (Nat.le_refl _), ?_⟩
    by_contra hne
    have hsome := hpresent es.length (by omega) (by omega)
    rw [hbefore, h] at hsome
    cases hsome
  · rintro ⟨hnow, rfl⟩
    refine ⟨Nat.le_refl _, fun j hij hj => ?_, fun _ => ?_⟩
    · rwa [show j = es.length + 1 by omega]
    · rw [Nat.add_sub_cancel, hbefore, h]

theorem existsUnique_cameIn (h : (p.contentsAfter es es.length k).isSome) :
    ∃! i, p.CameIn es k i := by
  induction es using List.reverseRecOn with
  | nil =>
    refine ⟨0, ⟨Nat.le_refl 0, fun j _ hj => ?_, fun hne => absurd rfl hne⟩, ?_⟩
    · exact Nat.le_zero.mp hj ▸ h
    · exact fun i hi => Nat.le_zero.mp hi.1
  | append_singleton es e ih =>
    rw [List.length_append, List.length_singleton] at h
    cases hbefore : p.contentsAfter es es.length k with
    | some text =>
      have hsome : (p.contentsAfter es es.length k).isSome := by rw [hbefore, Option.isSome_some]
      simp only [cameIn_append_iff_of_isSome hsome, h, true_and]
      exact ih hsome
    | none =>
      simp only [cameIn_append_iff_of_eq_none hbefore, h, true_and]
      exact ⟨es.length + 1, rfl, fun i hi => hi⟩

/-- The one key came in before the other.  Of two that were there from the start, it is the
    one that stood first. -/
def Earlier (p : Project) (es : List Edit) (k l : String) : Prop :=
  ∀ i j, p.CameIn es k i → p.CameIn es l j →
    i < j ∨ i = 0 ∧ j = 0 ∧ p.paths.idxOf k < p.paths.idxOf l

/-- The keys stand in the order of the moments at which they came in. -/
theorem pairwise_earlier (p : Project) (es : List Edit) :
    (p.edits es).paths.Pairwise (p.Earlier es) := by
  -- By the last edit: the keys that it keeps stay in order, and one that is new stands last.
  induction es using List.reverseRecOn with
  | nil =>
    change p.paths.Pairwise _
    rw [List.pairwise_iff_getElem]
    intro a b ha hb hab i j hi hj
    refine .inr ⟨Nat.le_zero.mp hi.1, Nat.le_zero.mp hj.1, ?_⟩
    have hnodup : p.paths.Nodup := p.files.nodup_keys
    rwa [hnodup.idxOf_getElem, hnodup.idxOf_getElem]
  | append_singleton es e ih =>
    have hpresent : ∀ k, (p.contentsAfter es es.length k).isSome ↔ k ∈ (p.edits es).paths := by
      intro k
      rw [← contents_edits, isSome_contents_iff]
    obtain ⟨keep, fresh, hpaths, hlength, hfresh⟩ := follows_edit (p.edits es) e
    rw [edits_append_singleton, hpaths, List.pairwise_append]
    refine ⟨?_, ?_, ?_⟩
    · refine List.Pairwise.filter keep (ih.imp_of_mem fun hk hl hearlier i j hi hj => ?_)
      rw [cameIn_append_iff_of_isSome ((hpresent _).mpr hk)] at hi
      rw [cameIn_append_iff_of_isSome ((hpresent _).mpr hl)] at hj
      exact hearlier i j hi.2 hj.2
    · match fresh, hlength with
      | [], _ => exact List.Pairwise.nil
      | [k], _ => exact List.pairwise_singleton _ k
    · -- What is new came in with the last edit.
      intro k hk l hl i j hi hj
      have hnone : p.contentsAfter es es.length l = none :=
        Option.not_isSome_iff_eq_none.mp fun h => hfresh l hl ((hpresent l).mp h)
      rw [cameIn_append_iff_of_isSome ((hpresent k).mpr (List.mem_of_mem_filter hk))] at hi
      rw [cameIn_append_iff_of_eq_none hnone] at hj
      have hle := hi.2.1
      exact .inl (by omega)

/-- After any edits of a project, the contents are those that the edits wrote last, and the
    keys are the present ones, each once, in the order of the moments at which they came in
    last.  An overwritten key keeps its place, also when it is overwritten by a rename, and a
    rename to a new key moves it to the end. -/
theorem edits_eq_history (p : Project) (es : List Edit) :
    let q := p.edits es
    q.contents = p.contentsAfter es es.length ∧
      (q.paths.Nodup ∧ ∀ k, k ∈ q.paths ↔ (p.contentsAfter es es.length k).isSome) ∧
      (∀ k ∈ q.paths, ∃! i, p.CameIn es k i) ∧
      q.paths.Pairwise (p.Earlier es) ∧
      (∀ path content, path ∈ q.paths →
        (q.edit (.upsert path content)).1.paths = q.paths) ∧
      ∀ source target, source ∈ q.paths → source ≠ target →
        (q.edit (.rename source target)).1.paths =
          if target ∈ q.paths then q.paths.filter (· != source)
          else q.paths.filter (· != source) ++ [target] := by
  intro q
  have hcontents : q.contents = p.contentsAfter es es.length := contents_edits p es
  have hpresent : ∀ k, k ∈ q.paths ↔ (p.contentsAfter es es.length k).isSome := by
    intro k
    rw [← hcontents, isSome_contents_iff]
  refine ⟨hcontents, ⟨q.files.nodup_keys, hpresent⟩,
    fun k hk => existsUnique_cameIn ((hpresent k).mp hk), pairwise_earlier p es, ?_, ?_⟩
  · intro path content hmem
    exact (Table.keys_put q.files path _).trans (if_pos hmem)
  · intro source target hmem hne
    simp only [edit]
    cases hrename : q.rename? source target with
    | none => exact absurd hmem (Table.get?_eq_none_iff.mp (rename?_eq_none hrename))
    | some r => exact paths_of_rename? hrename hne

/-- A key goes and comes back, another is overwritten by a rename, and a third is renamed. -/
theorem edits_eq_history_returning :
    let p := ofFiles [("a.js", "1"), ("b.js", "2"), ("c.js", "3"), ("d.js", "4")]
    let es : List Edit := [.delete "a.js", .rename "d.js" "b.js", .createFile "a.js",
      .upsert "c.js" none, .rename "c.js" "e.js", .upsert "b.js" (some "5")]
    (p.edits es).paths = ["b.js", "a.js", "e.js"] ∧
      (p.contentsAfter es 6 "b.js", p.contentsAfter es 2 "b.js", p.contentsAfter es 6 "e.js",
        (p.edits es).contents "e.js") = (some "5", some "4", some "3", some "3") ∧
      p.Earlier es "b.js" "a.js" ∧ p.Earlier es "a.js" "e.js" := by
  intro p es
  have hpaths : (p.edits es).paths = ["b.js", "a.js", "e.js"] := by decide
  obtain ⟨hcontents, -, -, horder, -, -⟩ := edits_eq_history p es
  rw [hpaths] at horder
  refine ⟨hpaths, ?_, ?_, ?_⟩
  · rw [hcontents]
    decide
  · exact List.rel_of_pairwise_cons horder (by simp)
  · exact List.rel_of_pairwise_cons horder.of_cons (by simp)

end Project

end LivePreview
