/-
  LivePreview.Proofs.FolderLibrary

  Projects kept in a folder are answered for as those kept in memory.

  Both libraries keep what a `Shelf` keeps: the project last saved under each id.  The one
  in memory holds its text on one line, the one in a folder a file with its text on several
  lines, and both texts are read back as the project (`MemoryLibrary.simulates`,
  `FolderLibrary.simulates`).  So whatever calls are made, the answers are the same, calls
  for one id are not touched by those for others, and nothing on the disk changes but the
  folder, which is made if it is missing, and the files right in it
  (`FolderLibrary.transcript_eq`).
-/

import LivePreview.Library.Folder
import LivePreview.Proofs.Exporting
import LivePreview.Proofs.RootFolder
import LivePreview.Proofs.StoredProject

namespace LivePreview

/-! ## Calls -/

namespace Library

/-- What can be asked of a library. -/
inductive Call where
  | save (id : String) (project : Project)
  | load (id : String)
  | loadOrStarter (id : String)
deriving DecidableEq

/-- The id that a call is for. -/
def Call.id : Call → String
  | save id _ | load id | loadOrStarter id => id

/-- What a library answers. -/
inductive Answer where
  | saved (result : Except LibraryError Unit)
  | loaded (result : Except LibraryError Project)
  | opened (project : Project)

variable {σ : Type}

/-- The calls, each with its answer. -/
def transcript (call : σ → Call → Answer × σ) : σ → List Call → List (Call × Answer)
  | _, [] => []
  | s, c :: rest => (c, (call s c).1) :: transcript call (call s c).2 rest

/-- The library after some calls. -/
def after (call : σ → Call → Answer × σ) (s : σ) (todo : List Call) : σ :=
  todo.foldl (fun s c => (call s c).2) s

end Library

open Library

/-- The calls of the library in memory. -/
def MemoryLibrary.call (l : MemoryLibrary) : Call → Answer × MemoryLibrary
  | .save id project => (.saved (.ok ()), l.save id project)
  | .load id => (.loaded (l.load id), l)
  | .loadOrStarter id => (.opened (l.loadOrStarter id), l)

/-- The calls of the library in a folder. -/
def FolderLibrary.call (root : String) (d : Disk) : Call → Answer × Disk
  | .save id project => (.saved (save d root id project).1, (save d root id project).2)
  | .load id => (.loaded (load d root id), d)
  | .loadOrStarter id => (.opened (loadOrStarter d root id), d)

/-! ## What both libraries keep -/

/-- The project last saved under each id. -/
abbrev Shelf : Type := String → Option Project

namespace Shelf

/-- Nothing saved. -/
def empty : Shelf := fun _ => none

def put (shelf : Shelf) (id : String) (project : Project) : Shelf :=
  fun other => if other = id then some project else shelf other

/-- What was saved is loaded repaired. -/
def load (shelf : Shelf) (id : String) : Except LibraryError Project :=
  (shelf id).elim (.error (.notFound id)) fun project => .ok project.repair

def call (shelf : Shelf) : Call → Answer × Shelf
  | .save id project => (.saved (.ok ()), shelf.put id project)
  | .load id => (.loaded (shelf.load id), shelf)
  | .loadOrStarter id => (.opened (.orStarter (shelf.load id)), shelf)

/-- The projects last saved in some calls. -/
def saved (todo : List Call) : Shelf := after call empty todo

variable {shelf shelf' : Shelf} {id : String}

theorem load_put (shelf : Shelf) (id : String) (project : Project) (other : String) :
    (shelf.put id project).load other =
      if other = id then .ok project.repair else shelf.load other := by
  rw [load, put]
  split <;> rfl

theorem load_congr (h : shelf id = shelf' id) : shelf.load id = shelf'.load id := by
  rw [load, load, h]

/-- A call for one id finds what was saved under this id only. -/
theorem call_congr (h : shelf id = shelf' id) {c : Call} (hc : c.id = id) :
    (shelf.call c).1 = (shelf'.call c).1 ∧ (shelf.call c).2 id = (shelf'.call c).2 id := by
  subst hc
  cases c with
  | save id project => exact ⟨rfl, by simp [call, put, Call.id]⟩
  | load id => exact ⟨congrArg Answer.loaded (load_congr h), h⟩
  | loadOrStarter id => exact ⟨congrArg (Answer.opened <| .orStarter ·) (load_congr h), h⟩

/-- A call for one id leaves what was saved under the others. -/
theorem call_of_ne {c : Call} (hc : c.id ≠ id) : (shelf.call c).2 id = shelf id := by
  cases c with
  | save other project => exact if_neg (Ne.symm hc)
  | load other | loadOrStarter other => rfl

/-- Among other calls, those for one id are answered as if they were the only ones. -/
theorem transcript_filter (h : shelf id = shelf' id) (todo : List Call) :
    (transcript call shelf todo).filter (·.1.id = id) =
      transcript call shelf' (todo.filter (·.id = id)) := by
  induction todo generalizing shelf shelf' with
  | nil => rfl
  | cons c rest ih =>
    rw [transcript, List.filter_cons, List.filter_cons]
    by_cases hc : c.id = id
    · obtain ⟨hanswer, hstep⟩ := call_congr h hc
      simp only [hc, decide_true, if_true, transcript, hanswer, ih hstep]
    · simp only [hc, decide_false, Bool.false_eq_true, if_false]
      exact ih ((call_of_ne hc).trans h)

end Shelf

namespace Library

variable {σ : Type} {call : σ → Call → Answer × σ} {P : Call → Prop} {R : Shelf → σ → Prop}

/-- Calls are answered as by a shelf that the library stands for, and it goes on standing
    for it. -/
def Simulates (call : σ → Call → Answer × σ) (P : Call → Prop) (R : Shelf → σ → Prop) : Prop :=
  ∀ shelf s c, R shelf s → P c → (call s c).1 = (shelf.call c).1 ∧ R (shelf.call c).2 (call s c).2

/-- What holds of one call holds of all calls of a run. -/
theorem Simulates.run (h : Simulates call P R) {shelf : Shelf} {s : σ} {todo : List Call}
    (hstart : R shelf s) (htodo : ∀ c ∈ todo, P c) :
    transcript call s todo = transcript Shelf.call shelf todo ∧
      R (after Shelf.call shelf todo) (after call s todo) := by
  induction todo generalizing shelf s with
  | nil => exact ⟨rfl, hstart⟩
  | cons c rest ih =>
    rw [List.forall_mem_cons] at htodo
    obtain ⟨hanswer, hstep⟩ := h shelf s c hstart htodo.1
    obtain ⟨hrest, hend⟩ := ih hstep htodo.2
    exact ⟨by rw [transcript, transcript, hanswer, hrest], hend⟩

end Library

/-! ## In memory -/

namespace MemoryLibrary

/-- The library loads what is on the shelf. -/
def Holds (shelf : Shelf) (l : MemoryLibrary) : Prop := ∀ id, l.load id = shelf.load id

theorem simulates : Simulates call (fun _ => True) Holds := by
  intro shelf l c h _
  cases c with
  | save id project =>
    refine ⟨rfl, fun other => ?_⟩
    rw [call, Shelf.call, Shelf.load_put]
    by_cases hid : other = id
    · rw [hid, if_pos rfl, load_save_eq]
    · rw [if_neg hid, load_save_of_ne hid, h]
  | load id => exact ⟨congrArg Answer.loaded (h id), h⟩
  | loadOrStarter id => exact ⟨congrArg (Answer.opened <| .orStarter ·) (h id), h⟩

end MemoryLibrary

/-! ## In a folder -/

namespace FolderLibrary

open Disk

variable {d d₀ : Disk} {root id : String} {place : Place} {shelf : Shelf}

/-- The name of the file of an id. -/
def fileName (id : String) : String := id ++ ".json"

/-- The id is valid, and the file system takes its file behind the root. -/
structure Accepts (root id : String) : Prop where
  isValidId : isValidId id = true
  takes : Takes root [fileName id]

instance (root id : String) : Decidable (Accepts root id) :=
  decidable_of_iff (FolderLibrary.isValidId id = true ∧ Takes root [fileName id])
    ⟨fun h => ⟨h.1, h.2⟩, fun h => ⟨h.isValidId, h.takes⟩⟩

theorem fileName_inj {other : String} (h : fileName id = fileName other) : id = other := by
  have hchars := congrArg String.toList h
  rw [fileName, fileName, String.toList_append, String.toList_append] at hchars
  exact String.toList_inj.mp (List.append_cancel_right hchars)

theorem Accepts.isName (h : Accepts root id) : IsName (fileName id) := by
  have hlast : (fileName id).toList.getLast? = some 'n' := by simp [fileName]
  have hne : ∀ s : String, s.toList.getLast? ≠ some 'n' → fileName id ≠ s := by
    rintro s hs rfl
    exact hs hlast
  have hslash : '/' ∉ (fileName id).toList := by
    have hid := h.isValidId
    simp only [FolderLibrary.isValidId, Bool.and_eq_true, Bool.not_eq_true'] at hid
    simpa [fileName] using hid.1.1.2
  exact ⟨⟨⟨hne "" (by decide), hslash⟩, hne "." (by decide), hne ".." (by decide)⟩,
    h.takes.size_le _ (List.mem_singleton_self _)⟩

theorem Accepts.refusal (h : Accepts root id) : refusal? (filePath root id) = none := by
  have hrefusal := h.takes.refusal
  rwa [Path.ofSegments_singleton] at hrefusal

/-- The file of a project. -/
def fileOf (project : Project) : Entry := .file project.toJson.pretty.toUTF8

/-- A disk that keeps what is on the shelf: once something was saved there is the folder,
    and in it the files of the projects. -/
structure Holds (d₀ : Disk) (root : String) (place : Place) (shelf : Shelf) (d : Disk) :
    Prop where
  folder : (∃ m, Opens d root place m) ∨ IsAbsent d root place ∧ shelf = .empty
  file : ∀ id, Accepts root id → d.get? (place ++ [fileName id]) = (shelf id).map fileOf
  kept : ∀ q, d.get? q = d₀.get? q ∨ ∃ id project, shelf id = some project ∧
    (q = place ∧ d.get? q = some .folder ∨
      q = place ++ [fileName id] ∧ d.get? q = some (fileOf project))

/-- The file of an id is read as the text of the project saved under it. -/
theorem Holds.readText (h : Holds d₀ root place shelf d) (hid : Accepts root id) :
    d.readText (filePath root id) =
      (shelf id).elim (.error .missing) fun project => .ok project.toJson.pretty := by
  rcases h.folder with ⟨m, hopens⟩ | ⟨habsent, rfl⟩
  · have hfile : d.get? (place ++ [fileName id]) =
        ((shelf id).map (·.toJson.pretty)).map fun text => .file text.toUTF8 := by
      rw [h.file id hid, Option.map_map]
      rfl
    refine (hopens.readText_child hid.isName hid.refusal hfile).trans ?_
    cases shelf id <;> rfl
  · exact habsent.readText_child hid.isName hid.refusal

theorem Holds.load (h : Holds d₀ root place shelf d) (hid : Accepts root id) :
    load d root id = shelf.load id := by
  unfold FolderLibrary.load
  rw [if_pos hid.isValidId, h.readText hid, Shelf.load]
  cases shelf id with
  | none => rfl
  | some project =>
    simp only [Option.elim_some, Project.ofStored?, Project.ofJson?, Project.ofRawJson?_pretty]
    rfl

/-- Before a project is written, the folder is there, and nothing else has changed. -/
theorem Holds.exists_makeFolders (h : Holds d₀ root place shelf d) :
    ∃ d₁ m, d.makeFolders root = (.ok (), d₁) ∧ Opens d₁ root place m ∧
      ∀ q, q ≠ place → d₁.get? q = d.get? q := by
  rcases h.folder with ⟨m, hopens⟩ | ⟨habsent, -⟩
  · exact ⟨d, m, hopens.makeFolders, hopens, fun q _ => rfl⟩
  · obtain ⟨m, hopens⟩ := habsent.exists_opens
    exact ⟨_, m, habsent.makeFolders, hopens, fun q hq => get?_put_of_ne hq d .folder⟩

/-- Where the file of an id is or would be, there is nothing else. -/
theorem Holds.exists_stored (h : Holds d₀ root place shelf d) {d₁ : Disk}
    (hsame : ∀ q, q ≠ place → d₁.get? q = d.get? q) (hid : Accepts root id) :
    ∃ stored : Option ByteArray, d₁.get? (place ++ [fileName id]) = stored.map .file := by
  refine ⟨(shelf id).map fun p => p.toJson.pretty.toUTF8, ?_⟩
  rw [hsame _ (by simp), h.file id hid, Option.map_map]
  rfl

/-- In the folder the file of the project is put, and a project with it on the shelf. -/
theorem Holds.put (h : Holds d₀ root place shelf d) {d₁ : Disk} {m : Nat}
    (hopens : Opens d₁ root place m) (hsame : ∀ q, q ≠ place → d₁.get? q = d.get? q)
    (hid : Accepts root id) (project : Project) :
    Holds d₀ root place (shelf.put id project)
      (d₁.put (place ++ [fileName id]) (fileOf project)) := by
  have hchild (s : String) : place ++ [s] ≠ place := by simp
  have hself := get?_put_self (List.append_ne_nil_of_right_ne_nil place
    (List.cons_ne_nil (fileName id) [])) d₁ (fileOf project)
  have hother {q : Place} (hq : q ≠ place ++ [fileName id]) (hplace : q ≠ place) :
      (d₁.put (place ++ [fileName id]) (fileOf project)).get? q = d.get? q := by
    rw [get?_put_of_ne hq, hsame q hplace]
  refine ⟨.inl ⟨m, ?_⟩, fun other hother' => ?_, fun q => ?_⟩
  · obtain ⟨stored, hstored⟩ := h.exists_stored hsame hid
    exact hopens.put_file hstored _
  · by_cases hsameId : other = id
    · rw [hsameId, hself, Shelf.put, if_pos rfl, Option.map_some]
    · -- Different ids have different files.
      have hne : place ++ [fileName other] ≠ place ++ [fileName id] := fun heq =>
        hsameId (fileName_inj (List.singleton_inj.mp (List.append_cancel_left heq)))
      rw [hother hne (hchild _), Shelf.put, if_neg hsameId, h.file other hother']
  · by_cases hq : q = place ++ [fileName id]
    · exact .inr ⟨id, project, if_pos rfl, .inr ⟨hq, hq ▸ hself⟩⟩
    by_cases hplace : q = place
    · refine .inr ⟨id, project, if_pos rfl, .inl ⟨hplace, ?_⟩⟩
      rw [hplace, get?_put_of_ne (hchild _).symm, hopens.folder]
    -- Anywhere else the disk is as before, and what was saved there still is.
    rw [hother hq hplace]
    refine (h.kept q).imp_right ?_
    rintro ⟨other, saved, hsaved, ⟨hroot, -⟩ | ⟨hfile, hget⟩⟩
    · exact absurd hroot hplace
    · have hne : other ≠ id := by
        rintro rfl
        exact hq hfile
      exact ⟨other, saved, (if_neg hne).trans hsaved, .inr ⟨hfile, hget⟩⟩

theorem Holds.exists_save (h : Holds d₀ root place shelf d) (hid : Accepts root id)
    (project : Project) :
    ∃ d', save d root id project = (.ok (), d') ∧
      Holds d₀ root place (shelf.put id project) d' := by
  obtain ⟨d₁, m, hmake, hopens, hsame⟩ := h.exists_makeFolders
  obtain ⟨stored, hstored⟩ := h.exists_stored hsame hid
  have hwrite : d₁.writeText (filePath root id) project.toJson.pretty = _ :=
    hopens.writeText_child hid.isName hid.refusal hstored project.toJson.pretty
  refine ⟨_, ?_, h.put hopens hsame hid project⟩
  simp only [save, hid.isValidId, if_true, hmake, hwrite]
  rfl

theorem simulates (d₀ : Disk) (root : String) (place : Place) :
    Simulates (call root) (fun c => Accepts root c.id) (Holds d₀ root place) := by
  intro shelf d c h hid
  cases c with
  | save id project =>
    obtain ⟨d', hsave, hholds⟩ := h.exists_save hid project
    refine ⟨congrArg Answer.saved (congrArg Prod.fst hsave), ?_⟩
    have hend : (call root d (.save id project)).2 = d' := congrArg Prod.snd hsave
    rw [hend]
    exact hholds
  | load id => exact ⟨congrArg Answer.loaded (h.load hid), h⟩
  | loadOrStarter id => exact ⟨congrArg (Answer.opened <| .orStarter ·) (h.load hid), h⟩

/-- The root is the path of an empty folder, or leads to nothing in a folder that is
    there. -/
def IsVacant (d : Disk) (root : String) (place : Place) : Prop :=
  d.find root = .ok (place, .folder) ∧ d.below place = [] ∨ IsAbsent d root place

/-- At first, nothing is on the shelf. -/
theorem holds_empty (hd : WellFormed d) (hroot : IsVacant d root place) :
    Holds d root place .empty d := by
  have hfree : ∀ s, d.get? (place ++ [s]) = none := by
    intro s
    rcases hroot with ⟨-, hempty⟩ | habsent
    · exact get?_of_below_eq_nil hempty (List.cons_ne_nil s [])
    · obtain ⟨above, t, m, rfl, hends⟩ := habsent.exists_ends
      by_contra hchild
      have hfolder := hd.isTree.get?_above (List.prefix_append _ [s]) (by simp) hchild
      rw [hends.free] at hfolder
      cases hfolder
  refine ⟨?_, fun id _ => hfree (fileName id), fun q => .inl rfl⟩
  exact hroot.imp (fun h => exists_opens_of_find hd h.1) fun h => ⟨h, rfl⟩

/-- Whatever calls are made for ids that are accepted, on a folder that is empty or not
    made yet, the answers are those of the library in memory; among other calls, those for
    one id are answered as if they were the only ones; and every place on the disk is as it
    was, but for the folder and the files of what was saved in it.  An id that is not valid
    is refused, and nothing changes. -/
theorem transcript_eq (hd : WellFormed d) (hroot : IsVacant d root place) {todo : List Call}
    (htodo : ∀ c ∈ todo, Accepts root c.id) :
    transcript (call root) d todo = transcript MemoryLibrary.call .empty todo ∧
      (∀ id, (transcript (call root) d todo).filter (·.1.id = id) =
        transcript (call root) d (todo.filter (·.id = id))) ∧
      (∀ q, (after (call root) d todo).get? q = d.get? q ∨
        ∃ id project, Shelf.saved todo id = some project ∧
          (q = place ∧ (after (call root) d todo).get? q = some .folder ∨
            q = place ++ [fileName id] ∧
              (after (call root) d todo).get? q = some (fileOf project))) ∧
      ∀ (other : Disk) (id : String) (project : Project), isValidId id = false →
        save other root id project = (.error (.invalidId id), other) ∧
          load other root id = .error (.invalidId id) := by
  have hstart := holds_empty hd hroot
  have hmemory : MemoryLibrary.Holds .empty .empty := fun _ => rfl
  obtain ⟨hfolder, hend⟩ := (simulates d root place).run hstart htodo
  obtain ⟨hshelf, -⟩ := MemoryLibrary.simulates.run hmemory fun _ _ => trivial
  refine ⟨hfolder.trans hshelf.symm, fun id => ?_, hend.kept, fun other id project hid => ?_⟩
  · have hfilter : ∀ c ∈ todo.filter (·.id = id), Accepts root c.id := fun c hc =>
      htodo c (List.mem_filter.mp hc).1
    rw [hfolder, ((simulates d root place).run hstart hfilter).1]
    exact Shelf.transcript_filter rfl todo
  · exact ⟨save_of_not_isValidId hid other root project, by rw [load, hid]; rfl⟩

/-- A folder that a link leads to, and nothing in it. -/
def cellarDisk : Disk :=
  Disk.empty.performAll [.makeFolders "/cellar", .makeLink "cellar" "/down"]

theorem wellFormed_cellarDisk : WellFormed cellarDisk := wellFormed_empty.performAll _

/-- Calls for two ids, one of them before anything was saved. -/
def twoIds : List Call :=
  [.loadOrStarter "a", .save "a" (.ofFiles [("q \"1\".js", "é\n")]), .load "b",
    .save "b" (.ofFiles [("index.html", "")]), .save "a" (.ofFiles []), .load "b"]

theorem transcript_eq_twoIds : WellFormed cellarDisk ∧
    IsVacant cellarDisk "down/projects/" ["cellar", "projects"] ∧
      (∀ c ∈ twoIds, Accepts "down/projects/" c.id) ∧
        transcript (call "down/projects/") cellarDisk twoIds =
          transcript MemoryLibrary.call .empty twoIds := by
  have hroot : IsVacant cellarDisk "down/projects/" ["cellar", "projects"] :=
    .inr (by unfold IsAbsent; decide +kernel)
  have htodo : ∀ c ∈ twoIds, Accepts "down/projects/" c.id := by decide +kernel
  exact ⟨wellFormed_cellarDisk, hroot, htodo,
    (transcript_eq wellFormed_cellarDisk hroot htodo).1⟩

end FolderLibrary

end LivePreview
