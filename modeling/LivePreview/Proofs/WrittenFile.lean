/-
  LivePreview.Proofs.WrittenFile

  What writing a file does to the disk.

  A walk to a file passes folders and links only, and a file can be put where nothing is or
  where another file is (`Disk.Walks.free_or_file`).  So putting it there leaves the walk as it
  was, and the path leads to the new file afterwards (`Disk.Walks.reach_file`).  A file that
  can be written is written, and no other place changes (`Disk.writeText_of_canWrite`); one
  that cannot be written leaves the disk as it was.
-/

import LivePreview.Proofs.ExportFrame
import LivePreview.Proofs.Importing

namespace LivePreview

namespace Disk

variable {d : Disk} {n : Nat} {start place : Place} {path text : String} {names : List String}
  {target : Target}

/-- A file can be written at the place: nothing is there yet, or a file is. -/
def Target.Takes (place : Place) : Target → Prop
  | .absent found | .present found (.file _) => found = place
  | .present .. => False

/-- A walk to write a file comes to a place that is free or holds a file. -/
theorem Walks.free_or_file (h : Walks d .write n start names target)
    (htakes : target.Takes place) :
    place ≠ [] ∧ (d.get? place = none ∨ ∃ old, d.get? place = some (.file old)) := by
  induction h with
  | here => exact htakes.elim
  | stay _ _ ih | up _ ih | down _ _ _ ih | through _ _ _ _ ih => exact ih htakes
  | free _ hnone =>
    obtain rfl := htakes
    exact ⟨by simp, .inl hnone⟩
  | file _ hfile =>
    obtain rfl := htakes
    exact ⟨by simp, .inr ⟨_, hfile⟩⟩
  | link hpurpose => cases hpurpose

/-- Once a file is there the same walk finds it, as long as folders and links stay where they
    are. -/
theorem Walks.reach_file (h : Walks d .write n start names target) (htakes : target.Takes place)
    {d' : Disk} (hfolders : ∀ q, d.get? q = some .folder → d'.get? q = some .folder)
    (hlinks : ∀ q link, d.get? q = some (.link link) → d'.get? q = some (.link link))
    {bytes : ByteArray} (hfile : d'.get? place = some (.file bytes)) :
    Walks d' .reach n start names (.present place (.file bytes)) := by
  induction h with
  | here => exact htakes.elim
  | stay hname _ ih => exact .stay hname (ih htakes)
  | up _ ih => exact .up (ih htakes)
  | free hname | file hname =>
    obtain rfl := htakes
    exact .file hname.reach hfile
  | link hpurpose => cases hpurpose
  | down hname hfolder _ ih => exact .down hname.reach (hfolders _ hfolder) (ih htakes)
  | through hname hlink _ _ ih =>
    exact .through hname.reach (hlinks _ _ hlink) (by simp) (ih htakes)

/-- The path leads to a place where a file can be written. -/
def CanWrite (d : Disk) (path : String) : Prop :=
  ∃ target place, d.resolve .write path = .ok target ∧ target.Takes place

/-- From the first disk to the second, the text was written into the file at the end of the
    path, which was there before or nothing was there, and nothing else is changed. -/
def Wrote (d : Disk) (path text : String) (d' : Disk) : Prop :=
  ∃ place, (d.get? place = none ∨ ∃ old, d.get? place = some (.file old)) ∧
    d'.find path = .ok (place, .file text.toUTF8) ∧ d'.here = d.here ∧
    ∀ other ≠ place, d'.get? other = d.get? other

theorem Wrote.readText {d' : Disk} (h : Wrote d path text d') : d'.readText path = .ok text := by
  obtain ⟨place, -, hfind, -⟩ := h
  have htext : String.fromUTF8? text.toUTF8 = some text := fromUTF8?_eq_some_iff.mpr rfl
  simp only [Disk.readText, readBytes, hfind, htext]

theorem wrote_put (h : d.resolve .write path = .ok target) (htakes : target.Takes place)
    (text : String) : Wrote d path text (d.put place (.file text.toUTF8)) := by
  unfold resolve at h
  split at h
  · cases h
  next hrefusal =>
  have hwrite := walks_iff.mpr h
  obtain ⟨hplace, hfree⟩ := hwrite.free_or_file htakes
  -- The place was free or a file, so folders and links are elsewhere.
  have hkeep : ∀ q entry, (∀ bytes, entry ≠ .file bytes) → d.get? q = some entry →
      (d.put place (.file text.toUTF8)).get? q = some entry := by
    intro q entry hentry hq
    rw [get?_put_of_ne, hq]
    rintro rfl
    rw [hq] at hfree
    rcases hfree with hnone | ⟨old, hold⟩
    · cases hnone
    · exact hentry old (Option.some.inj hold)
  have hreach := hwrite.reach_file htakes (fun q => hkeep q _ (by simp))
    (fun q _ => hkeep q _ (by simp)) (get?_put_self hplace d (.file text.toUTF8))
  have hwalk := hreach.followLinks_eq_ok
  refine ⟨place, hfree, ?_, rfl, fun other hother => get?_put_of_ne hother d _⟩
  simp only [find, resolve, hrefusal]
  rw [if_neg (by decide)] at hwalk ⊢
  exact hwalk ▸ rfl

theorem writeText_of_canWrite (h : d.CanWrite path) (text : String) :
    ∃ d', d.writeText path text = (.ok (), d') ∧ Wrote d path text d' := by
  obtain ⟨target, place, hresolve, htakes⟩ := h
  refine ⟨_, ?_, wrote_put hresolve htakes text⟩
  simp only [writeText, writeBytes, hresolve]
  cases target with
  | absent found =>
    obtain rfl : found = place := htakes
    rfl
  | present found entry =>
    cases entry with
    | file old =>
      obtain rfl : found = place := htakes
      rfl
    | folder | link => exact htakes.elim

theorem writeText_of_not_canWrite (h : ¬d.CanWrite path) (text : String) :
    ∃ e, d.writeText path text = (.error e, d) := by
  unfold writeText writeBytes
  split
  · exact ⟨_, rfl⟩
  · next place _ hresolve => exact absurd ⟨_, place, hresolve, rfl⟩ h
  · next place hresolve => exact absurd ⟨_, place, hresolve, rfl⟩ h
  · exact ⟨_, rfl⟩

end Disk

end LivePreview
