/-
  LivePreview.Proofs.FileTree

  Entries that are a tree: one at each place, and a folder at each place above.

  Where the entries of a disk are a tree, looking a place up finds exactly its entry
  (`IsTree.get?_eq_some_iff`), what is below a folder is a tree again (`IsTree.below`), and
  putting something into a folder that is there keeps the tree (`IsTree.put`).
-/

import LivePreview.Proofs.Walking
import Mathlib.Data.List.Infix
import Mathlib.Data.List.Nodup
import Mathlib.Data.Set.Finite.List
import Mathlib.Order.Preorder.Finite

namespace LivePreview

namespace Disk

/-- Entries that are a tree of files, links and folders. -/
structure IsTree (entries : List (Place × Entry)) : Prop where
  nodup : (entries.map Prod.fst).Nodup
  ne_nil : ∀ e ∈ entries, e.1 ≠ []
  names : ∀ e ∈ entries, ∀ s ∈ e.1, IsName s
  above : ∀ e ∈ entries, ∀ place, place ≠ [] → place <+: e.1 → place ≠ e.1 →
    (place, .folder) ∈ entries

/-- At a place, there is nothing further down. -/
def IsLast (entries : List (Place × Entry)) (place : Place) : Prop :=
  ∀ e ∈ entries, place <+: e.1 → e.1 = place

variable {d : Disk} {entries : List (Place × Entry)} {place other : Place} {entry : Entry}

theorem isTree_nil : IsTree [] := by
  constructor <;> simp

/-! ## Looking up -/

/-- At one place there is one entry. -/
theorem IsTree.unique (h : IsTree entries) {entry' : Entry} (hmem : (place, entry) ∈ entries)
    (hmem' : (place, entry') ∈ entries) : entry = entry' := by
  rw [← Entries.lookup_eq_some_iff_mem h.nodup] at hmem hmem'
  exact Option.some.inj (hmem.symm.trans hmem')

/-- Whatever stands at a place, some entry at or below it has nothing below it. -/
theorem exists_isLast (hmem : (place, entry) ∈ entries) :
    ∃ e ∈ entries, place <+: e.1 ∧ IsLast entries e.1 := by
  have hfinite : {e | e ∈ entries ∧ place <+: e.1}.Finite :=
    (List.finite_toSet entries).subset fun e he => he.1
  obtain ⟨e, ⟨he, hpre⟩, hlongest⟩ := hfinite.exists_maximalFor (fun e => e.1.length) _
    ⟨_, hmem, List.prefix_refl place⟩
  refine ⟨e, he, hpre, fun other hother hbelow => ?_⟩
  have hle := hlongest ⟨hother, hpre.trans hbelow⟩ hbelow.length_le
  exact (hbelow.eq_of_length_le hle).symm

theorem IsTree.get?_eq_some_iff (h : IsTree d.entries) (hne : place ≠ []) :
    d.get? place = some entry ↔ (place, entry) ∈ d.entries := by
  rw [get?, if_neg hne]
  exact Entries.lookup_eq_some_iff_mem h.nodup

/-- Above what is there, there are folders. -/
theorem IsTree.get?_above (h : IsTree d.entries) (hpre : other <+: place) (hne : other ≠ place)
    (hplace : d.get? place ≠ none) : d.get? other = some .folder := by
  by_cases hnil : other = []
  · rw [get?, if_pos hnil]
  · have hplace' : place ≠ [] := by
      rintro rfl
      exact hne (List.prefix_nil.mp hpre)
    obtain ⟨entry, hentry⟩ := Option.ne_none_iff_exists'.mp hplace
    rw [h.get?_eq_some_iff hnil]
    exact h.above _ ((h.get?_eq_some_iff hplace').mp hentry) other hnil hpre hne

/-- A folder is in folders only. -/
theorem IsTree.get?_folder_above (h : IsTree d.entries) (hpre : other <+: place)
    (hplace : d.get? place = some .folder) : d.get? other = some .folder := by
  by_cases heq : other = place
  · rwa [heq]
  · exact h.get?_above hpre heq (by simp [hplace])

/-! ## Below a place -/

theorem mem_below {s : Place} :
    (s, entry) ∈ d.below place ↔ s ≠ [] ∧ (place ++ s, entry) ∈ d.entries := by
  rw [below, List.mem_filterMap]
  constructor
  · rintro ⟨⟨q, e⟩, hmem, hq⟩
    split at hq
    · next hbelow =>
      rw [Bool.and_eq_true, List.isPrefixOf_iff_prefix, bne_iff_ne] at hbelow
      obtain ⟨⟨rest, rfl⟩, hlength⟩ := hbelow
      simp only [List.drop_left, Option.some.injEq, Prod.mk.injEq] at hq
      obtain ⟨rfl, rfl⟩ := hq
      exact ⟨by rintro rfl; simp at hlength, hmem⟩
    · cases hq
  · rintro ⟨hne, hmem⟩
    refine ⟨_, hmem, ?_⟩
    rw [if_pos, List.drop_left]
    simpa using hne

theorem IsTree.mem_below_iff (h : IsTree d.entries) {s : Place} :
    (s, entry) ∈ d.below place ↔ s ≠ [] ∧ d.get? (place ++ s) = some entry := by
  rw [mem_below]
  refine and_congr_right fun hne => ?_
  rw [h.get?_eq_some_iff (by simp [hne])]

/-- Where a folder is empty, nothing is found below it. -/
theorem get?_of_below_eq_nil (h : d.below place = []) {s : Place} (hne : s ≠ []) :
    d.get? (place ++ s) = none := by
  rw [get?, if_neg (by simp [hne]), Option.eq_none_iff_forall_ne_some]
  intro entry hentry
  have hmem := mem_below.mpr ⟨hne, Entries.mem_of_lookup hentry⟩
  rw [h] at hmem
  cases hmem

theorem nodup_map_fst_below (h : (d.entries.map Prod.fst).Nodup) (place : Place) :
    ((d.below place).map Prod.fst).Nodup := by
  -- Different places below are different from the top as well.
  have hpairs : d.entries.Pairwise fun x y => x.1 ≠ y.1 := List.pairwise_map.mp h
  refine List.pairwise_map.mpr (List.Pairwise.filterMap _ ?_ hpairs)
  intro x y hxy x' hx y' hy heq
  have split {z z' : Place × Entry} (hz : (if place.isPrefixOf z.1 && z.1.length != place.length
      then some (z.1.drop place.length, z.2) else none) = some z') : z.1 = place ++ z'.1 := by
    split at hz
    · next hbelow =>
      rw [Bool.and_eq_true, List.isPrefixOf_iff_prefix] at hbelow
      obtain ⟨rest, hrest⟩ := hbelow.1
      cases hz
      rw [← hrest, List.drop_left]
    · cases hz
  exact hxy (by rw [split hx, split hy, heq])

theorem IsTree.below (h : IsTree d.entries) (place : Place) : IsTree (d.below place) := by
  refine ⟨nodup_map_fst_below h.nodup place, ?_, ?_, ?_⟩
  · rintro ⟨s, entry⟩ hmem
    exact (mem_below.mp hmem).1
  · rintro ⟨s, entry⟩ hmem name hname
    exact h.names _ (mem_below.mp hmem).2 name (List.mem_append_right place hname)
  · rintro ⟨s, entry⟩ hmem t hne hpre hdiff
    obtain ⟨-, hmem⟩ := mem_below.mp hmem
    refine mem_below.mpr ⟨hne, h.above _ hmem _ (by simp [hne]) ?_ ?_⟩
    · exact (List.prefix_append_right_inj place).mpr hpre
    · simpa using hdiff

theorem IsTree.nodup_below (h : IsTree d.entries) (place : Place) : (d.below place).Nodup :=
  (h.below place).nodup.of_map _

/-! ## Putting -/

/-- Something new in a folder that is there. -/
theorem IsTree.put (h : IsTree d.entries) (place : Place) (name : String) (entry : Entry)
    (hname : IsName name) (hfolder : d.get? place = some .folder)
    (hnew : d.get? (place ++ [name]) = none) :
    IsTree (d.put (place ++ [name]) entry).entries := by
  -- The new place has the folders and names of its folder above it, and one name more.
  have hplace : ∀ above, above ≠ [] → above <+: place → (above, .folder) ∈ d.entries := by
    intro above hne hpre
    rw [← h.get?_eq_some_iff hne]
    exact h.get?_folder_above hpre hfolder
  have hfresh : ∀ e, (place ++ [name], e) ∉ d.entries := by
    intro e hmem
    rw [← h.get?_eq_some_iff (by simp), hnew] at hmem
    cases hmem
  refine ⟨Entries.nodup_put h.nodup _ _, ?_, ?_, ?_⟩
  · intro x hx
    rcases Entries.eq_or_mem_of_mem_put hx with rfl | hx
    · simp
    · exact h.ne_nil x hx
  · intro x hx s hs
    rcases Entries.eq_or_mem_of_mem_put hx with rfl | hx
    · rcases List.mem_append.mp hs with hs | hs
      · refine h.names (place, .folder) (hplace place ?_ (List.prefix_refl place)) s hs
        rintro rfl
        cases hs
      · exact List.mem_singleton.mp hs ▸ hname
    · exact h.names x hx s hs
  · intro x hx above hne hpre hdiff
    have hold : (above, .folder) ∈ d.entries := by
      rcases Entries.eq_or_mem_of_mem_put hx with rfl | hx
      · rcases List.prefix_concat_iff.mp hpre with heq | hpre
        · exact absurd heq hdiff
        · exact hplace above hne hpre
      · exact h.above x hx above hne hpre hdiff
    refine Entries.mem_put_of_ne ?_ hold
    rintro rfl
    exact hfresh _ hold

end Disk

end LivePreview
