/-
  LivePreview.Proofs.WellFormedDisk

  Whatever is done to a well-formed disk, it stays well-formed.

  What a walk comes to is there, or it is a free place in a folder with a name that can stand
  there (`Walks.stands`).  So each operation puts an entry where the tree has room for it
  (`WellFormed.make`, `WellFormed.writeText`), and all that can be done to a disk is made of
  these two (`WellFormed.performAll`).
-/

import LivePreview.Library.Folder
import LivePreview.Proofs.FolderMaking

namespace LivePreview

namespace Disk

open LivePreview.Path

variable {d : Disk} {n : Nat} {start place : Place} {purpose : Purpose} {names : List String}
  {target : Target} {path : String} {entry : Entry} {old : ByteArray}

/-! ## Where an entry can be put -/

theorem isSegment_of_mem_names {path s : String} (h : s ∈ Disk.names path) : IsSegment s :=
  isSegment_of_mem_segments h

theorem slash_not_mem_of_mem_namesToEnd {s : String} (h : s ∈ namesToEnd path) :
    '/' ∉ s.toList := by
  unfold namesToEnd at h
  split at h
  · rcases List.mem_append.mp h with h | h
    · exact (isSegment_of_mem_names h).2
    · rw [List.mem_singleton.mp h]
      exact List.not_mem_nil
  · exact (isSegment_of_mem_names h).2

/-- A name that is looked up and has no slash can stand on a disk. -/
theorem Descends.isName {s : String} {rest : List String} (h : Descends purpose s rest)
    (hslash : '/' ∉ s.toList) : IsName s :=
  ⟨⟨⟨fun heq => h.not_stays (.inl heq), hslash⟩, fun heq => h.not_stays (.inr heq), h.ne_up⟩,
    h.size_le⟩

/-- What is present is found at its place; what is absent is free, and a name that can stand in
    the folder above it. -/
def Target.Stands (d : Disk) : Target → Prop
  | .present place entry => d.get? place = some entry
  | .absent place => d.get? place = none ∧
      ∃ above s, place = above ++ [s] ∧ IsName s ∧ d.get? above = some .folder

theorem Walks.stands (h : Walks d purpose n start names target) (hd : IsTree d.entries)
    (hstart : d.get? start = some .folder) (hnames : ∀ s ∈ names, '/' ∉ s.toList) :
    target.Stands d := by
  induction h with
  | here => exact hstart
  | stay _ _ ih => exact ih hstart (List.forall_mem_cons.mp hnames).2
  | @up _ start _ _ _ ih =>
    exact ih (hd.get?_folder_above (List.dropLast_prefix start) hstart)
      (List.forall_mem_cons.mp hnames).2
  | free hname hnone =>
    exact ⟨hnone, _, _, rfl, hname.isName (hnames _ List.mem_cons_self), hstart⟩
  | file _ hfile => exact hfile
  | link _ _ hlink => exact hlink
  | down _ hfolder _ ih => exact ih hfolder (List.forall_mem_cons.mp hnames).2
  | through _ _ _ _ ih =>
    refine ih (get?_origin hstart _) fun s hs => ?_
    rcases List.mem_append.mp hs with hs | hs
    · exact slash_not_mem_of_mem_namesToEnd hs
    · exact hnames s (List.mem_cons_of_mem _ hs)

theorem WellFormed.stands (hd : WellFormed d) (h : d.resolve purpose path = .ok target) :
    target.Stands d := by
  unfold resolve at h
  split at h
  · cases h
  · refine (walks_iff.mpr h).stands hd.isTree (get?_origin hd.here path) fun s hs => ?_
    split at hs
    · exact (isSegment_of_mem_names hs).2
    · exact slash_not_mem_of_mem_namesToEnd hs

/-! ## One operation -/

theorem wellFormed_empty : WellFormed empty := ⟨isTree_nil, rfl⟩

theorem WellFormed.put_absent (hd : WellFormed d) (h : (Target.absent place).Stands d)
    (entry : Entry) : WellFormed (d.put place entry) := by
  obtain ⟨hfree, above, s, rfl, hname, habove⟩ := h
  refine ⟨hd.isTree.put above s entry hname habove hfree, ?_⟩
  have hhere : d.here ≠ above ++ [s] := by
    intro heq
    rw [← heq, hd.here] at hfree
    cases hfree
  exact (get?_put_of_ne hhere d entry).trans hd.here

/-- Where a file is, another one can be put. -/
theorem IsTree.put_file (h : IsTree d.entries) (hfile : d.get? place = some (.file old))
    (bytes : ByteArray) : IsTree (d.put place (.file bytes)).entries := by
  have hne : place ≠ [] := by
    rintro rfl
    cases hfile
  have hmem := (h.get?_eq_some_iff hne).mp hfile
  refine ⟨Entries.nodup_put h.nodup _ _, ?_, ?_, ?_⟩
  · intro e he
    rcases Entries.eq_or_mem_of_mem_put he with rfl | he
    · exact hne
    · exact h.ne_nil e he
  · intro e he
    rcases Entries.eq_or_mem_of_mem_put he with rfl | he
    · exact h.names (place, .file old) hmem
    · exact h.names e he
  · intro e he above habove hpre hdiff
    have hfolder : (above, .folder) ∈ d.entries := by
      rcases Entries.eq_or_mem_of_mem_put he with rfl | he
      · exact h.above (place, .file old) hmem above habove hpre hdiff
      · exact h.above e he above habove hpre hdiff
    refine Entries.mem_put_of_ne ?_ hfolder
    rintro rfl
    cases h.unique hmem hfolder

theorem WellFormed.put_file (hd : WellFormed d) (hfile : d.get? place = some (.file old))
    (bytes : ByteArray) : WellFormed (d.put place (.file bytes)) := by
  refine ⟨hd.isTree.put_file hfile bytes, ?_⟩
  have hhere : d.here ≠ place := by
    rintro rfl
    rw [hd.here] at hfile
    cases hfile
  exact (get?_put_of_ne hhere d _).trans hd.here

theorem WellFormed.make (hd : WellFormed d) (path : String) (entry : Entry) :
    WellFormed (d.make path entry).2 := by
  unfold Disk.make
  split
  · exact hd
  · exact hd
  · next hresolve => exact hd.put_absent (hd.stands hresolve) entry

theorem WellFormed.writeText (hd : WellFormed d) (path text : String) :
    WellFormed (d.writeText path text).2 := by
  unfold Disk.writeText writeBytes
  split
  · exact hd
  · next hresolve => exact hd.put_file (hd.stands hresolve) _
  · next hresolve => exact hd.put_absent (hd.stands hresolve) _
  · exact hd

/-! ## All operations -/

theorem WellFormed.makeFolders (hd : WellFormed d) (path : String) :
    WellFormed (d.makeFolders path).2 :=
  makeFoldersFrom_induction hd fun _ hd path _ => hd.make path .folder

theorem WellFormed.exportProject (hd : WellFormed d) (root : String) (project : Project) :
    WellFormed (d.exportProject root project).2 := by
  refine exportFiles_induction hd fun d hd f _ => ?_
  unfold exportFile
  split
  · split
    · exact hd.makeFolders _
    · exact exportText_induction hd (fun _ hd _ _ path _ => hd.make path .folder)
        fun _ hd => hd.writeText _ f.content
  · exact hd

theorem WellFormed.save (hd : WellFormed d) (root id : String) (project : Project) :
    WellFormed (FolderLibrary.save d root id project).2 := by
  unfold FolderLibrary.save
  split
  · have hmade := hd.makeFolders root
    split
    · next heq => rwa [heq] at hmade
    · next d₁ heq =>
      rw [heq] at hmade
      have hwritten := hmade.writeText (FolderLibrary.filePath root id) project.toJson.pretty
      split
      · next heq => rwa [heq] at hwritten
      · next heq => rwa [heq] at hwritten
  · exact hd

/-- What can be done to a disk. -/
inductive Operation where
  | makeFolders (path : String)
  | makeLink (target path : String)
  | writeText (path text : String)
  | exportProject (root : String) (project : Project)
  | save (root id : String) (project : Project)

/-- The disk after an operation, carried out or refused. -/
def perform (d : Disk) : Operation → Disk
  | .makeFolders path => (d.makeFolders path).2
  | .makeLink target path => (d.makeLink target path).2
  | .writeText path text => (d.writeText path text).2
  | .exportProject root project => (d.exportProject root project).2
  | .save root id project => (FolderLibrary.save d root id project).2

/-- The disk after some operations. -/
def performAll (d : Disk) (todo : List Operation) : Disk := todo.foldl perform d

theorem WellFormed.perform (hd : WellFormed d) (op : Operation) : WellFormed (d.perform op) := by
  cases op with
  | makeFolders path => exact hd.makeFolders path
  | makeLink target path => exact hd.make path (.link target)
  | writeText path text => exact hd.writeText path text
  | exportProject root project => exact hd.exportProject root project
  | save root id project => exact hd.save root id project

/-- Whatever is done to a well-formed disk, one thing after the other, and whether it is
    carried out or refused, the disk stays well-formed. -/
theorem WellFormed.performAll (hd : WellFormed d) (todo : List Operation) :
    WellFormed (d.performAll todo) := by
  induction todo generalizing d with
  | nil => exact hd
  | cons op rest ih => exact ih (hd.perform op)

end Disk

end LivePreview
