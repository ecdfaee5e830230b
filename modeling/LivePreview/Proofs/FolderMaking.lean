/-
  LivePreview.Proofs.FolderMaking

  Making folders and files below a folder.

  What a disk keeps when one folder is made or one file is written, it keeps through all
  that is done one after the other (`makeFoldersFrom_induction`, `exportText_induction`,
  `exportFiles_induction`).  A path behind the path of a folder is walked from that folder on
  (`Opens.resolve_joinPath`).  So making folders down some names makes exactly those that
  are missing (`Opens.makeFolders_pathDown`), and writing a new file puts it below the
  folders above it (`Opens.exportText_joinPath`).
-/

import LivePreview.Disk.Export
import LivePreview.Proofs.FileTree
import Mathlib.Data.List.Induction

namespace LivePreview

namespace Disk

open LivePreview.Path

/-- A disk whose entries are a tree, and where relative paths begin in a folder. -/
structure WellFormed (d : Disk) : Prop where
  isTree : IsTree d.entries
  here : d.get? d.here = some .folder

/-- The root is the path of a folder; so many links may be followed behind it. -/
structure Opens (d : Disk) (root : String) (place : Place) (m : Nat) : Prop where
  refusal : refusal? root = none
  folder : d.get? place = some .folder
  leads : Leads d 40 (origin d.here root) (names root) m place

variable {d d' : Disk} {root s text : String} {place : Place} {m : Nat} {ks : List String}

/-! ## One after the other -/

/-- What is kept when one of the folders is made is kept when they are all made. -/
theorem makeFoldersFrom_induction {P : Disk → Prop} {paths : List String} (hd : P d)
    (hmake : ∀ d, P d → ∀ path ∈ paths, P (d.makeFolder path).2) :
    P (d.makeFoldersFrom paths).2 := by
  induction paths with
  | nil => exact hd
  | cons path above ih =>
    have hmade := hmake d hd path List.mem_cons_self
    have habove := ih fun d hd t ht => hmake d hd t (List.mem_cons_of_mem path ht)
    rw [makeFoldersFrom]
    split
    · next heq => rwa [heq] at hmade
    · split
      · next heq => rwa [heq] at habove
      · next heq =>
        -- The folders above are there now, and this one is made once more.
        rw [heq] at habove
        have hagain := hmake _ habove path List.mem_cons_self
        split
        · next heq => rwa [heq] at hagain
        · next heq => rwa [heq] at hagain
    · next heq => rwa [heq] at hmade

/-- What is kept when a folder above a file is made and when its text is written is kept when
    the text is exported. -/
theorem exportText_induction {P : Disk → Prop} {path : String} (hd : P d)
    (hmake : ∀ d, P d → ∀ up, parent? path = some up → ∀ t ∈ ancestors up, P (d.makeFolder t).2)
    (hwrite : ∀ d, P d → P (d.writeText path text).2) : P (d.exportText path text).2 := by
  unfold exportText
  cases hparent : parent? path with
  | none => exact hwrite d hd
  | some up =>
    have hmade : P (d.exportFolder up).2 :=
      makeFoldersFrom_induction hd fun d hd => hmake d hd up hparent
    dsimp only
    generalize d.exportFolder up = made at hmade ⊢
    obtain ⟨result, d₁⟩ := made
    cases result with
    | error e => exact hmade
    | ok => exact hwrite d₁ hmade

/-- What is kept when one of the files is exported is kept when they are all exported, also if
    a refusal ends the export. -/
theorem exportFiles_induction {P : Disk → Prop} {files : List File} (hd : P d)
    (hexport : ∀ d, P d → ∀ f ∈ files, P (d.exportFile root f).2) :
    P (exportFiles root d files).2 := by
  induction files generalizing d with
  | nil => exact hd
  | cons f rest ih =>
    have hfile := hexport d hd f List.mem_cons_self
    rw [exportFiles]
    split
    · next heq => rwa [heq] at hfile
    · next heq =>
      rw [heq] at hfile
      exact ih hfile fun d hd g hg => hexport d hd g (List.mem_cons_of_mem f hg)

/-! ## Paths that are taken -/

theorem refusal?_eq_none_iff {path : String} :
    refusal? path = none ↔
      '\x00' ∉ path.toList ∧ path ≠ "" ∧ path.utf8ByteSize ≤ maxPathBytes := by
  unfold refusal?
  split
  · next h => simpa using fun hzero => absurd (by simpa using h) hzero
  · next hzero =>
    split
    · next hempty => simp [String.isEmpty_iff.mp hempty]
    · next hempty =>
      have hne : path ≠ "" := by simpa using hempty
      have hzero : '\x00' ∉ path.toList := by simpa using hzero
      split
      · next hlong => simp only [reduceCtorEq, false_iff, not_and, not_le]; omega
      · next hlong => exact iff_of_true rfl ⟨hzero, hne, by omega⟩

theorem refusal?_eq_tooLong {path : String} (hzero : '\x00' ∉ path.toList)
    (hlong : maxPathBytes < path.utf8ByteSize) : refusal? path = some .tooLong := by
  have hne : path ≠ "" := by
    rintro rfl
    exact absurd hlong (by decide)
  simp [refusal?, hzero, hne, hlong]

/-- Where a path is taken, so is each path that it begins with. -/
theorem refusal?_of_isPrefix {path longer : String} (hne : path ≠ "")
    (hpre : path.toList <+: longer.toList) (h : refusal? longer = none) : refusal? path = none := by
  obtain ⟨rest, hrest⟩ := hpre
  have hlonger : longer = path ++ String.ofList rest := by
    rw [← String.toList_inj, ← hrest]
    simp
  rw [refusal?_eq_none_iff] at h ⊢
  obtain ⟨hzero, -, hsize⟩ := h
  refine ⟨fun hmem => hzero (hrest ▸ List.mem_append_left rest hmem), hne, ?_⟩
  rw [hlonger, String.utf8ByteSize_append] at hsize
  omega

/-! ## Walking from the root -/

theorem get?_origin {start : Place} (h : d.get? start = some .folder) (path : String) :
    d.get? (origin start path) = some .folder := by
  unfold origin
  split
  · rfl
  · exact h

theorem get?_of_leads {n : Nat} {start : Place} {names : List String} (hd : IsTree d.entries)
    (h : Leads d n start names m place) (hstart : d.get? start = some .folder) :
    d.get? place = some .folder := by
  induction h with
  | here => exact hstart
  | stay _ _ ih => exact ih hstart
  | @up _ _ start _ _ _ ih =>
    exact ih (hd.get?_folder_above (List.dropLast_prefix start) hstart)
  | down _ _ _ hfolder _ ih => exact ih hfolder
  | through _ _ _ _ _ ih => exact ih (get?_origin hstart _)

theorem exists_namesToEnd (path : String) :
    ∃ blanks, (∀ b ∈ blanks, b = "" ∨ b = ".") ∧ namesToEnd path = names path ++ blanks := by
  unfold namesToEnd
  split
  · exact ⟨[""], by simp, rfl⟩
  · exact ⟨[], by simp, (List.append_nil _).symm⟩

/-- A path that is found to be a folder is taken, and its names lead there. -/
theorem exists_leads_of_find (h : d.find root = .ok (place, .folder)) :
    refusal? root = none ∧ ∃ m, Leads d 40 (origin d.here root) (names root) m place := by
  unfold find resolve at h
  cases hrefusal : refusal? root with
  | some e => simp [hrefusal] at h
  | none =>
    simp only [hrefusal, reduceCtorEq, if_false] at h
    split at h
    · cases h
    · cases h
    · next found =>
      cases h
      obtain ⟨blanks, hblanks, hnames⟩ := exists_namesToEnd root
      rw [hnames] at found
      exact ⟨rfl, leads_of_followLinks hblanks found⟩

/-- A path that is found to be a folder opens it. -/
theorem exists_opens_of_find (hd : WellFormed d) (h : d.find root = .ok (place, .folder)) :
    ∃ m, Opens d root place m := by
  obtain ⟨hrefusal, m, hm⟩ := exists_leads_of_find h
  exact ⟨m, hrefusal, get?_of_leads hd.isTree hm (get?_origin hd.here root), hm⟩

theorem Opens.mono (h : Opens d root place m) (hhere : d'.here = d.here)
    (hkeep : ∀ q entry, d.get? q = some entry → d'.get? q = some entry) :
    Opens d' root place m :=
  ⟨h.refusal, hkeep _ _ h.folder, hhere ▸ h.leads.mono (hkeep · .folder) fun q _ => hkeep q _⟩

theorem Opens.root_ne_empty (h : Opens d root place m) : root ≠ "" :=
  (refusal?_eq_none_iff.mp h.refusal).2.1

/-- Without what is idle at its end, the root is a path of the same folder. -/
theorem Opens.exists_trimEnd (h : Opens d root place m) : ∃ n, Opens d (trimEnd root) place n := by
  have hroot := h.root_ne_empty
  have hrefusal : refusal? (trimEnd root) = none := by
    refine refusal?_of_isPrefix ?_ (toList_trimEnd_isPrefix root) h.refusal
    intro hempty
    exact toList_trimEnd_ne_nil hroot (by rw [hempty]; rfl)
  obtain ⟨k, hnames⟩ := names_trimEnd root
  have hfollow := h.leads.followLinks_reach
  rw [hnames] at hfollow
  obtain ⟨n, hn⟩ := leads_of_followLinks (fun b hb => .inr (List.eq_of_mem_replicate hb)) hfollow
  refine ⟨n, hrefusal, h.folder, ?_⟩
  rwa [origin, isAbsolute_trimEnd hroot]

/-- The root is found to be the folder. -/
theorem Opens.find (h : Opens d root place m) : d.find root = .ok (place, .folder) := by
  obtain ⟨blanks, hblanks, hnames⟩ := exists_namesToEnd root
  have hfollow : d.followLinks .reach 40 (origin d.here root) (names root ++ blanks) =
      d.followLinks .reach m place blanks := h.leads.followLinks_append (.inl rfl)
  rw [followLinks_blanks hblanks] at hfollow
  unfold Disk.find resolve
  simp only [h.refusal, reduceCtorEq, if_false, hnames, hfollow]

/-- A path down from the root is walked from the folder on. -/
theorem Opens.resolve_joinPath (h : Opens d root place m) (hks : ∀ s ∈ ks, IsStep s)
    (hne : ks ≠ []) (href : refusal? (joinPath root (ofSegments ks)) = none) (purpose : Purpose) :
    d.resolve purpose (joinPath root (ofSegments ks)) = d.followLinks purpose m place ks := by
  have hroot := h.root_ne_empty
  have hpath := isAbsolute_ofSegments hks
  have hlast : ks ≠ [""] := by
    rintro rfl
    exact (hks "" List.mem_cons_self).isSegment.1 rfl
  have hnames : names (joinPath root (ofSegments ks)) = names root ++ ks := by
    rw [names_joinPath hroot hpath, names_ofSegments hks]
  unfold resolve
  rw [href]
  simp only [origin, isAbsolute_joinPath hroot hpath, namesToEnd_joinPath hroot hks hne, hnames,
    ite_self]
  exact h.leads.followLinks_append (.inr ⟨hne, hlast⟩)

/-- Names of folders are walked down, and the last name is looked up there. -/
theorem Opens.resolve_child (h : Opens d root place m) (hd : IsTree d.entries)
    (hnames : ∀ t ∈ ks ++ [s], IsName t) (hfolder : d.get? (place ++ ks) = some .folder)
    (href : refusal? (joinPath root (ofSegments (ks ++ [s]))) = none) (purpose : Purpose) :
    d.resolve purpose (joinPath root (ofSegments (ks ++ [s]))) =
      d.followLinks purpose m (place ++ ks) [s] := by
  obtain ⟨hks, hs⟩ := List.forall_mem_append.mp hnames
  have hs : IsName s := hs s List.mem_cons_self
  have hdown : Leads d m place ks m (place ++ ks) := leads_down hks fun above _ hpre =>
    hd.get?_folder_above ((List.prefix_append_right_inj place).mpr hpre) hfolder
  have hlast : [s] ≠ [""] := by
    intro heq
    exact hs.isStep.isSegment.1 (List.singleton_inj.mp heq)
  rw [h.resolve_joinPath (fun t ht => (hnames t ht).isStep) (by simp) href purpose,
    hdown.followLinks_append (.inr ⟨List.cons_ne_nil s [], hlast⟩)]

/-- Down some names from a place, there are folders or there is nothing. -/
def IsPassable (d : Disk) (place ks : Place) : Prop :=
  ∀ above, above <+: ks → above ≠ [] →
    d.get? (place ++ above) = none ∨ d.get? (place ++ above) = some .folder

theorem IsPassable.of_isPrefix {above : Place} (h : IsPassable d place ks) (hpre : above <+: ks) :
    IsPassable d place above :=
  fun q hq hne => h q (hq.trans hpre) hne

/-- Above the last name there is a folder, or a folder is missing on the way. -/
theorem IsPassable.folder_or_missing (h : IsPassable d place (ks ++ [s]))
    (hplace : d.get? place = some .folder) :
    d.get? (place ++ ks) = some .folder ∨ ks ≠ [] ∧ d.get? (place ++ ks) = none := by
  by_cases hnil : ks = []
  · exact .inl (by rw [hnil, List.append_nil, hplace])
  · rcases h ks (List.prefix_append ks [s]) hnil with hnone | hfolder
    · exact .inr ⟨hnil, hnone⟩
    · exact .inl hfolder

/-- Where a folder is missing on the way, so is all that should be made behind it. -/
theorem followLinks_make_missing {start : Place} (hnames : ∀ t ∈ ks ++ [s], IsName t)
    (hfree : IsPassable d start ks) (hnil : ks ≠ []) (hnone : d.get? (start ++ ks) = none) :
    d.followLinks .make m start (ks ++ [s]) = .error .missing := by
  induction ks generalizing start with
  | nil => exact absurd rfl hnil
  | cons name rest ih =>
    have hname : IsName name := hnames name (by simp)
    rw [List.cons_append]
    rcases hfree [name] (by simp) (by simp) with hfirst | hfirst
    · exact followLinks_missing hname hfirst (by simp) (by simp)
    · rw [followLinks_down (hname.descends (by simp)), hfirst]
      rw [List.append_cons] at hnone
      have hrest : rest ≠ [] := by
        rintro rfl
        simp [hfirst] at hnone
      refine ih (fun t ht => hnames t (List.mem_cons_of_mem name ht)) ?_ hrest hnone
      intro above hpre hne
      rw [← List.append_cons]
      exact hfree (name :: above) (by simpa using hpre) (by simp)

/-! ## Making folders -/

theorem Opens.makeFolder_of_none (h : Opens d root place m) (hd : IsTree d.entries)
    (hnames : ∀ t ∈ ks ++ [s], IsName t) (hfolder : d.get? (place ++ ks) = some .folder)
    (href : refusal? (joinPath root (ofSegments (ks ++ [s]))) = none)
    (hnone : d.get? (place ++ ks ++ [s]) = none) :
    d.makeFolder (joinPath root (ofSegments (ks ++ [s]))) =
      (.ok (), d.put (place ++ ks ++ [s]) .folder) := by
  rw [makeFolder, make, h.resolve_child hd hnames hfolder href,
    followLinks_singleton (hnames s (by simp)), hnone]

/-- A folder that is there is not made, and that counts as made. -/
theorem Opens.makeFolder_of_folder (h : Opens d root place m) (hd : IsTree d.entries)
    (hnames : ∀ t ∈ ks ++ [s], IsName t) (hfolder : d.get? (place ++ ks) = some .folder)
    (href : refusal? (joinPath root (ofSegments (ks ++ [s]))) = none)
    (hthere : d.get? (place ++ ks ++ [s]) = some .folder) :
    d.makeFolder (joinPath root (ofSegments (ks ++ [s]))) = (.error .taken, d) ∧
      d.isFolder (joinPath root (ofSegments (ks ++ [s]))) = true := by
  have hresolve := h.resolve_child hd hnames hfolder href
  simp only [followLinks_singleton (hnames s (by simp)), hthere] at hresolve
  constructor
  · rw [makeFolder, make, hresolve]
  · rw [isFolder, Disk.find, hresolve]

theorem Opens.makeFolder_of_missing (h : Opens d root place m)
    (hnames : ∀ t ∈ ks ++ [s], IsName t) (hfree : IsPassable d place ks)
    (hnil : ks ≠ []) (hnone : d.get? (place ++ ks) = none)
    (href : refusal? (joinPath root (ofSegments (ks ++ [s]))) = none) :
    d.makeFolder (joinPath root (ofSegments (ks ++ [s]))) = (.error .missing, d) := by
  rw [makeFolder, make, h.resolve_joinPath (fun t ht => (hnames t ht).isStep) (by simp) href,
    followLinks_make_missing hnames hfree hnil hnone]

/-- A folder whose path is too long is not made. -/
theorem makeFolders_of_tooLong {path up : String} (h : refusal? path = some .tooLong)
    (hup : parent? path = some up) (d : Disk) : d.makeFolders path = (.error .tooLong, d) := by
  have hmade : d.makeFolder path = (.error .tooLong, d) := by rw [makeFolder, make, resolve, h]
  rw [makeFolders, ancestors_of_parent? hup, makeFoldersFrom, hmade]
  rfl

/-- The root is there already. -/
theorem Opens.makeFolders (h : Opens d root place m) : d.makeFolders root = (.ok (), d) := by
  obtain ⟨found, entry, hmake⟩ := h.leads.followLinks_make
  have hmade : d.makeFolder root = (.error .taken, d) := by
    rw [makeFolder, make, resolve, h.refusal]
    simp only [if_true, hmake]
  have hfolder : d.isFolder root = true := by rw [isFolder, h.find]
  unfold Disk.makeFolders
  cases hup : parent? root with
  | none => rw [ancestors_of_parent?_eq_none hup, makeFoldersFrom]
  | some up =>
    rw [ancestors_of_parent? hup, makeFoldersFrom, hmade]
    simp [hfolder]

theorem Opens.makeFolders_trimEnd (h : Opens d root place m) :
    d.makeFolders (trimEnd root) = (.ok (), d) := by
  obtain ⟨n, hn⟩ := h.exists_trimEnd
  exact hn.makeFolders

theorem append_append_ne_of_isPrefix {above : Place} (hpre : above <+: ks) (place : Place)
    (s : String) : place ++ ks ++ [s] ≠ place ++ above := by
  rw [List.append_assoc, ne_eq, List.append_cancel_left_eq]
  rintro rfl
  exact absurd hpre.length_le (by simp)

/-- Below a place, some folders were made, and everything else is as it was. -/
structure Made (d : Disk) (place ks : Place) (d' : Disk) : Prop where
  isTree : IsTree d'.entries
  here : d'.here = d.here
  folder : ∀ above, above <+: ks → d'.get? (place ++ above) = some .folder
  kept : ∀ q, (∀ above, above <+: ks → q ≠ place ++ above) → d'.get? q = d.get? q

theorem made_self (hd : IsTree d.entries) (hfolder : d.get? (place ++ ks) = some .folder) :
    Made d place ks d := by
  refine ⟨hd, rfl, fun above hpre => ?_, fun q _ => rfl⟩
  exact hd.get?_folder_above ((List.prefix_append_right_inj place).mpr hpre) hfolder

/-- Behind the last name, everything is as it was. -/
theorem Made.kept_behind (h : Made d place ks d') (s : String) :
    d'.get? (place ++ ks ++ [s]) = d.get? (place ++ ks ++ [s]) :=
  h.kept _ fun _ hpre => append_append_ne_of_isPrefix hpre place s

theorem Made.free_behind (h : Made d place ks d') (hd : IsTree d.entries)
    (hnone : d.get? (place ++ ks) = none) (s : String) : d'.get? (place ++ ks ++ [s]) = none := by
  rw [h.kept_behind]
  by_contra hchild
  have hfolder := hd.get?_above (List.prefix_append (place ++ ks) [s]) (by simp) hchild
  rw [hnone] at hfolder
  cases hfolder

/-- One folder more is made below those that were made. -/
theorem Made.put (h : Made d place ks d') (hs : IsName s)
    (hnone : d'.get? (place ++ ks ++ [s]) = none) :
    Made d place (ks ++ [s]) (d'.put (place ++ ks ++ [s]) .folder) := by
  refine ⟨h.isTree.put _ s _ hs (h.folder ks (List.prefix_refl ks)) hnone, h.here, ?_, ?_⟩
  · intro above hpre
    rcases List.prefix_concat_iff.mp hpre with rfl | hpre
    · rw [← List.append_assoc, get?_put_self (by simp)]
    · rw [get?_put_of_ne (append_append_ne_of_isPrefix hpre place s).symm, h.folder above hpre]
  · intro q hq
    have hold := h.kept q fun above hpre => hq above (hpre.trans (List.prefix_append ks [s]))
    rw [get?_put_of_ne, hold]
    simpa using hq (ks ++ [s]) (List.prefix_refl _)

/-- Where there was nothing but folders, making folders takes nothing away. -/
theorem Made.get?_eq_some (h : Made d place ks d') (hplace : d.get? place = some .folder)
    (hfree : IsPassable d place ks) (q : Place) (entry : Entry) (hq : d.get? q = some entry) :
    d'.get? q = some entry := by
  by_cases hmade : ∃ above, above <+: ks ∧ q = place ++ above
  · obtain ⟨above, hpre, rfl⟩ := hmade
    have hfolder : d.get? (place ++ above) = some .folder := by
      by_cases hnil : above = []
      · rwa [hnil, List.append_nil]
      · exact (hfree above hpre hnil).resolve_left (by simp [hq])
    rw [h.folder above hpre, ← hq, hfolder]
  · rw [h.kept q fun above hpre heq => hmade ⟨above, hpre, heq⟩, hq]

/-- Making folders down some names makes those that are missing. -/
theorem Opens.makeFolders_pathDown (h : Opens d root place m) (hd : IsTree d.entries)
    (hnames : ∀ t ∈ ks, IsName t) (href : refusal? (pathDown root ks) = none)
    (hfree : IsPassable d place ks) :
    ∃ d', d.makeFolders (pathDown root ks) = (.ok (), d') ∧ Made d place ks d' := by
  -- By the last name, as the program tries to make that folder first.
  induction ks using List.reverseRecOn with
  | nil =>
    refine ⟨d, h.makeFolders_trimEnd, made_self hd ?_⟩
    rw [List.append_nil, h.folder]
  | append_singleton ks s ih =>
    have hroot := h.root_ne_empty
    have hsteps : ∀ t ∈ ks ++ [s], IsStep t := fun t ht => (hnames t ht).isStep
    have hs : IsName s := hnames s (by simp)
    rw [pathDown, if_neg (by simp)] at href ⊢
    have hpassable : IsPassable d place ks := hfree.of_isPrefix (List.prefix_append ks [s])
    unfold Disk.makeFolders
    rw [ancestors_of_parent? (parent?_joinPath hroot hsteps), makeFoldersFrom]
    rcases hfree.folder_or_missing h.folder with hfolder | ⟨hnil, hnone⟩
    · rcases hfree (ks ++ [s]) (List.prefix_refl _) (by simp) with hchild | hchild
      · rw [← List.append_assoc] at hchild
        rw [h.makeFolder_of_none hd hnames hfolder href hchild]
        exact ⟨_, rfl, (made_self hd hfolder).put hs hchild⟩
      · have hthere := h.makeFolder_of_folder hd hnames hfolder href
          (by rwa [List.append_assoc])
        rw [hthere.1]
        exact ⟨d, by simp [hthere.2], made_self hd hchild⟩
    · -- The folders above are made first, and then this one.
      have hpre := toList_pathDown_isPrefix hroot hsteps
      have href' := refusal?_of_isPrefix (pathDown_ne_empty hroot ks) hpre href
      obtain ⟨d', hmake, hmade⟩ := ih (fun t ht => hnames t (List.mem_append_left [s] ht)) href'
        hpassable
      have hnone' : d'.get? (place ++ ks ++ [s]) = none := hmade.free_behind hd hnone s
      have hopens : Opens d' root place m :=
        h.mono hmade.here (hmade.get?_eq_some h.folder hpassable)
      rw [h.makeFolder_of_missing hnames hpassable hnil hnone href]
      unfold Disk.makeFolders at hmake
      simp only [hmake, hopens.makeFolder_of_none hmade.isTree hnames
        (hmade.folder ks (List.prefix_refl ks)) href hnone']
      exact ⟨_, rfl, hmade.put hs hnone'⟩

/-! ## Writing a file -/

/-- A new file is put into the folder above it, which is made if it is missing. -/
theorem Opens.exportText_joinPath (h : Opens d root place m) (hd : IsTree d.entries)
    (hnames : ∀ t ∈ ks ++ [s], IsName t)
    (href : refusal? (joinPath root (ofSegments (ks ++ [s]))) = none)
    (hfree : IsPassable d place ks)
    (hnone : d.get? (place ++ ks ++ [s]) = none) (text : String) :
    ∃ d', Made d place ks d' ∧ d'.get? (place ++ ks ++ [s]) = none ∧
      d.exportText (joinPath root (ofSegments (ks ++ [s]))) text =
        (.ok (), d'.put (place ++ ks ++ [s]) (.file text.toUTF8)) := by
  have hroot := h.root_ne_empty
  have hsteps : ∀ t ∈ ks ++ [s], IsStep t := fun t ht => (hnames t ht).isStep
  have hpre := toList_pathDown_isPrefix hroot hsteps
  have href' := refusal?_of_isPrefix (pathDown_ne_empty hroot ks) hpre href
  obtain ⟨d', hmake, hmade⟩ := h.makeFolders_pathDown hd
    (fun t ht => hnames t (List.mem_append_left [s] ht)) href' hfree
  have hopens : Opens d' root place m :=
    h.mono hmade.here (hmade.get?_eq_some h.folder hfree)
  have hnone' : d'.get? (place ++ ks ++ [s]) = none := by rw [hmade.kept_behind, hnone]
  have hresolve := hopens.resolve_child hmade.isTree hnames (hmade.folder ks (List.prefix_refl ks))
    href .write
  simp only [followLinks_singleton (hnames s (by simp)), hnone'] at hresolve
  refine ⟨d', hmade, hnone', ?_⟩
  rw [exportText, parent?_joinPath hroot hsteps]
  simp only [exportFolder, hmake, atPath, writeText, writeBytes, hresolve]

end Disk

end LivePreview
