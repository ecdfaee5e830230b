/-
  LivePreview.Proofs.RootFolder

  A folder that may have to be made, and the files right in it.

  A path that leads to nothing yet (`Disk.IsAbsent`) becomes one of a folder when folders
  are made for it (`IsAbsent.makeFolders`, `IsAbsent.exists_opens`), and until then nothing
  is found behind it.  In a folder that is there, a file is read and written at its own
  name (`Opens.readText_child`, `Opens.writeText_child`), and the folder can be reached all
  the same behind that (`Opens.put_file`).
-/

import LivePreview.Proofs.Importing
import LivePreview.Proofs.WellFormedDisk

namespace LivePreview

namespace Disk

open LivePreview.Path

variable {d : Disk} {root name text : String} {place : Place} {m : Nat}

/-! ## A path that leads to nothing yet -/

/-- The root leads to nothing, in a folder that is there. -/
def IsAbsent (d : Disk) (root : String) (place : Place) : Prop :=
  d.resolve .make root = .ok (.absent place)

/-- How a root leads to nothing: up to its last name to a folder, and the last name is free
    there. -/
structure Ends (d : Disk) (root : String) (above : Place) (s : String) (m : Nat) : Prop where
  refusal : refusal? root = none
  walk : ∃ front, names root = front ++ [s] ∧ Leads d 40 (origin d.here root) front m above
  isName : IsName s
  free : d.get? (above ++ [s]) = none

/-- A last name that leads to nothing is one that a new entry can have. -/
theorem isName_of_walks_absent {s : String} {above : Place} (hs : IsSegment s)
    (h : Walks d .make m above [s] (.absent place)) :
    IsName s ∧ d.get? (above ++ [s]) = none ∧ place = above ++ [s] := by
  -- Staying, going up and going down lead to a folder, and a link would be there.
  cases h with
  | stay _ h | up h | down _ _ h => cases h
  | free hname hnone => exact ⟨hname.isName hs.2, hnone, rfl⟩
  | through _ _ hlast => exact absurd ⟨rfl, rfl⟩ hlast

theorem IsAbsent.exists_ends (h : IsAbsent d root place) :
    ∃ above s m, place = above ++ [s] ∧ Ends d root above s m := by
  unfold IsAbsent resolve at h
  cases hrefusal : refusal? root with
  | some e => simp [hrefusal] at h
  | none =>
    simp only [hrefusal, if_true] at h
    rcases List.eq_nil_or_concat (names root) with hnames | ⟨front, s, hnames⟩
    · rw [hnames, followLinks_nil] at h
      cases h
    rw [List.concat_eq_append] at hnames
    rw [hnames] at h
    obtain ⟨m, above, hleads, hlast⟩ :=
      (walks_iff.mpr h).exists_leads (.inl (List.cons_ne_nil s []))
    have hmem : s ∈ names root := by rw [hnames]; simp
    obtain ⟨hname, hfree, rfl⟩ :=
      isName_of_walks_absent (isSegment_of_mem_names hmem) hlast
    exact ⟨above, s, m, rfl, hrefusal, ⟨front, hnames, hleads⟩, hname, hfree⟩

/-- The root is not the top and no empty path. -/
theorem Ends.parent?_ne_none {above : Place} {s : String} (h : Ends d root above s m) :
    parent? root ≠ none := by
  intro hnone
  obtain ⟨front, hnames, -⟩ := h.walk
  obtain ⟨k, hk⟩ := names_trimEnd root
  have htop : names (trimEnd root) = [] := by
    unfold parent? at hnone
    split at hnone
    · next hempty => rw [trimEnd, hempty]; decide
    · next hslash => rw [trimEnd, hslash]; decide
    · cases hnone
  rw [htop, hnames, List.nil_append] at hk
  have hmem : s ∈ List.replicate k "." := hk ▸ by simp
  exact h.isName.isStep.ne_here (List.eq_of_mem_replicate hmem)

theorem IsAbsent.makeFolders (h : IsAbsent d root place) :
    d.makeFolders root = (.ok (), d.put place .folder) := by
  obtain ⟨above, s, m, -, hends⟩ := h.exists_ends
  obtain ⟨up, hup⟩ := Option.ne_none_iff_exists'.mp hends.parent?_ne_none
  have hmade : d.makeFolder root = (.ok (), d.put place .folder) := by rw [makeFolder, make, h]
  rw [Disk.makeFolders, ancestors_of_parent? hup, makeFoldersFrom, hmade]

/-- Once the folder is made, the root is its path. -/
theorem IsAbsent.exists_opens (h : IsAbsent d root place) :
    ∃ m, Opens (d.put place .folder) root place m := by
  obtain ⟨above, s, m, rfl, hends⟩ := h.exists_ends
  obtain ⟨front, hnames, hleads⟩ := hends.walk
  have hne : above ++ [s] ≠ [] := by simp
  -- What the walk passes is there before, and the new folder is put where nothing was.
  have hkeep : ∀ q entry, d.get? q = some entry →
      (d.put (above ++ [s]) .folder).get? q = some entry := by
    intro q entry hq
    rw [get?_put_of_ne, hq]
    rintro rfl
    rw [hends.free] at hq
    cases hq
  have hfolder : (d.put (above ++ [s]) .folder).get? (above ++ [s]) = some .folder :=
    get?_put_self hne d .folder
  have hwalk := hleads.mono (hkeep · .folder) fun q _ => hkeep q _
  refine ⟨m, hends.refusal, hfolder, ?_⟩
  rw [hnames]
  exact hwalk.append (.down hends.isName.not_stays hends.isName.isStep.ne_up
    hends.isName.size_le hfolder (.here m _))

/-- Nothing is found behind a root that leads to nothing. -/
theorem IsAbsent.readText_child (h : IsAbsent d root place) (hname : IsName name)
    (href : refusal? (joinPath root name) = none) :
    d.readText (joinPath root name) = .error .missing := by
  obtain ⟨above, s, m, -, hends⟩ := h.exists_ends
  obtain ⟨front, hnames, hleads⟩ := hends.walk
  have hroot := (refusal?_eq_none_iff.mp hends.refusal).2.1
  have hsteps : ∀ t ∈ [name], IsStep t := fun t ht => List.mem_singleton.mp ht ▸ hname.isStep
  have hpath : isAbsolute (ofSegments [name]) = false := isAbsolute_ofSegments hsteps
  have hto := namesToEnd_joinPath hroot hsteps (List.cons_ne_nil name [])
  have horigin := isAbsolute_joinPath hroot hpath
  rw [ofSegments_singleton] at hto horigin
  -- The walk comes to the last name of the root, where nothing is, and cannot go on.
  have hwalk : d.followLinks .reach 40 (origin d.here root) (front ++ [s, name]) =
      .error .missing := by
    rw [hleads.followLinks_append (.inl rfl)]
    exact followLinks_missing hends.isName hends.free (by simp) (by simp)
  unfold readText readBytes Disk.find resolve
  rw [href]
  simp only [origin, horigin, hto, hnames, List.append_assoc, List.cons_append, List.nil_append,
    reduceCtorEq, if_false]
  unfold origin at hwalk
  rw [hwalk]

/-! ## Files right in a folder -/

theorem Opens.resolve_name (h : Opens d root place m) (hname : IsName name)
    (href : refusal? (joinPath root name) = none) (purpose : Purpose) :
    d.resolve purpose (joinPath root name) = d.followLinks purpose m place [name] := by
  have hsteps : ∀ s ∈ [name], IsStep s := fun s hs => List.mem_singleton.mp hs ▸ hname.isStep
  have hresolve := h.resolve_joinPath hsteps (List.cons_ne_nil name [])
  rw [ofSegments_singleton] at hresolve
  exact hresolve href purpose

/-- A text is read where it stands, and where nothing stands the file is missing. -/
theorem Opens.readText_child (h : Opens d root place m) (hname : IsName name)
    (href : refusal? (joinPath root name) = none) {stored : Option String}
    (hstored : d.get? (place ++ [name]) = stored.map fun text => .file text.toUTF8) :
    d.readText (joinPath root name) = stored.elim (.error .missing) .ok := by
  unfold readText readBytes Disk.find
  rw [h.resolve_name hname href, followLinks_singleton hname, hstored]
  cases stored with
  | none => rfl
  | some text =>
    have htext : String.fromUTF8? text.toUTF8 = some text := fromUTF8?_eq_some_iff.mpr rfl
    simp only [Option.map_some, Option.elim_some, htext]

/-- A text is written where a file stands or nothing. -/
theorem Opens.writeText_child (h : Opens d root place m) (hname : IsName name)
    (href : refusal? (joinPath root name) = none) {stored : Option ByteArray}
    (hstored : d.get? (place ++ [name]) = stored.map .file) (text : String) :
    d.writeText (joinPath root name) text =
      (.ok (), d.put (place ++ [name]) (.file text.toUTF8)) := by
  unfold writeText writeBytes
  rw [h.resolve_name hname href, followLinks_singleton hname, hstored]
  cases stored <;> rfl

/-- A folder is still reached behind a file that was written. -/
theorem Opens.put_file (h : Opens d root place m) {q : Place} {stored : Option ByteArray}
    (hstored : d.get? q = stored.map .file) (bytes : ByteArray) :
    Opens (d.put q (.file bytes)) root place m := by
  -- The walk passes folders and links, and no file is one.
  have hkeep : ∀ p entry, (∀ b, entry ≠ .file b) → d.get? p = some entry →
      (d.put q (.file bytes)).get? p = some entry := by
    intro p entry hentry hp
    rw [get?_put_of_ne, hp]
    rintro rfl
    rw [hp] at hstored
    cases stored with
    | none => cases hstored
    | some b => exact hentry b (Option.some.inj hstored)
  exact ⟨h.refusal, hkeep _ _ (by simp) h.folder,
    h.leads.mono (fun p => hkeep p _ (by simp)) fun p _ => hkeep p _ (by simp)⟩

end Disk

end LivePreview
