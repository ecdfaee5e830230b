/-
  LivePreview.Proofs.Walking

  The walks that come to something, and those that lead to a folder.

  `Disk.Walks` has one case for each kind of step that a walk can take, so that what holds of
  every walk is shown by induction on it and no step is looked into twice (`walks_iff`).
  `Disk.Leads` says, name by name, that a walk comes to a folder, and how many links may
  still be followed there.  A walk that goes on leads to a folder first
  (`Walks.exists_leads`), a path that goes on behind it is walked from that folder on
  (`Leads.followLinks_append`), and the walk stays the same while the folders and links of
  the disk stay where they are (`Leads.mono`).
-/

import LivePreview.Proofs.JoinedPath

namespace LivePreview

namespace Disk

/-- A name that can stand on a disk. -/
structure IsName (s : String) : Prop where
  isStep : Path.IsStep s
  size_le : s.utf8ByteSize ≤ maxNameBytes

instance (s : String) : Decidable (IsName s) :=
  decidable_of_iff (Path.IsStep s ∧ s.utf8ByteSize ≤ maxNameBytes)
    ⟨fun h => ⟨h.1, h.2⟩, fun h => ⟨h.isStep, h.size_le⟩⟩

theorem IsName.not_stays {s : String} (h : IsName s) : ¬ (s = "" ∨ s = ".") := by
  rintro (rfl | rfl)
  · exact h.isStep.isSegment.1 rfl
  · exact h.isStep.ne_here rfl

/-- From a folder, with so many links to follow, the names lead to a folder, with so many
    links left. -/
inductive Leads (d : Disk) : Nat → Place → List String → Nat → Place → Prop where
  | here (n : Nat) (place : Place) : Leads d n place [] n place
  | stay {n m : Nat} {start place : Place} {name : String} {rest : List String}
      (hname : name = "" ∨ name = ".") (h : Leads d n start rest m place) :
      Leads d n start (name :: rest) m place
  | up {n m : Nat} {start place : Place} {rest : List String}
      (h : Leads d n start.dropLast rest m place) : Leads d n start (".." :: rest) m place
  | down {n m : Nat} {start place : Place} {name : String} {rest : List String}
      (hstay : ¬ (name = "" ∨ name = ".")) (hup : name ≠ "..")
      (hsize : name.utf8ByteSize ≤ maxNameBytes) (hfolder : d.get? (start ++ [name]) = some .folder)
      (h : Leads d n (start ++ [name]) rest m place) : Leads d n start (name :: rest) m place
  | through {n m : Nat} {start place : Place} {name target : String} {rest : List String}
      (hstay : ¬ (name = "" ∨ name = ".")) (hup : name ≠ "..")
      (hsize : name.utf8ByteSize ≤ maxNameBytes)
      (hlink : d.get? (start ++ [name]) = some (.link target))
      (h : Leads d n (origin start target) (namesToEnd target ++ rest) m place) :
      Leads d (n + 1) start (name :: rest) m place

variable {d d' : Disk} {n m : Nat} {start place : Place} {purpose : Purpose} {name : String}
  {names rest : List String} {target : Target}

/-! ## One step -/

/-- What is done at a link when so many links may be followed. -/
def onLinkWithin (d : Disk) (purpose : Purpose) : Nat → Place → List String → Except Refusal Target
  | 0 => fun _ _ => .error .tooManyLinks
  | n + 1 => d.followLinks purpose n

theorem followLinks_eq (d : Disk) (purpose : Purpose) (n : Nat) :
    d.followLinks purpose n = d.follow purpose (d.onLinkWithin purpose n) := by
  cases n <;> rfl

@[simp] theorem followLinks_nil (d : Disk) (purpose : Purpose) (n : Nat) (start : Place) :
    d.followLinks purpose n start [] = .ok (.present start .folder) := by
  rw [followLinks_eq, follow]

theorem followLinks_stay (hname : name = "" ∨ name = ".") :
    d.followLinks purpose n start (name :: rest) = d.followLinks purpose n start rest := by
  rw [followLinks_eq, follow, if_pos hname]

theorem followLinks_up :
    d.followLinks purpose n start (".." :: rest) = d.followLinks purpose n start.dropLast rest := by
  rw [followLinks_eq, follow, if_neg (by decide), if_pos rfl]

/-- The name is looked up when the others are walked behind it: it does not stay or go up, it
    is not too long, and no slash stands behind it if a file is to be written. -/
structure Descends (purpose : Purpose) (name : String) (rest : List String) : Prop where
  not_stays : ¬ (name = "" ∨ name = ".")
  ne_up : name ≠ ".."
  size_le : name.utf8ByteSize ≤ maxNameBytes
  rest_ne : purpose = .write → rest ≠ [""]

theorem IsName.descends (h : IsName name) (hrest : purpose = .write → rest ≠ [""]) :
    Descends purpose name rest :=
  ⟨h.not_stays, h.isStep.ne_up, h.size_le, hrest⟩

/-- What is looked up to be written can also be looked up to be reached. -/
theorem Descends.reach (h : Descends purpose name rest) : Descends .reach name rest :=
  ⟨h.not_stays, h.ne_up, h.size_le, nofun⟩

theorem followLinks_down (h : Descends purpose name rest) :
    d.followLinks purpose n start (name :: rest) =
      match d.get? (start ++ [name]) with
      | none => if rest.isEmpty then .ok (.absent (start ++ [name])) else .error .missing
      | some .folder => d.followLinks purpose n (start ++ [name]) rest
      | some (.file bytes) =>
        if rest.isEmpty then .ok (.present (start ++ [name]) (.file bytes)) else .error .notFolder
      | some (.link target) =>
        if rest.isEmpty ∧ purpose = .make then .ok (.present (start ++ [name]) (.link target))
        else d.onLinkWithin purpose n (origin start target) (namesToEnd target ++ rest) := by
  have hwrite : ¬ (purpose = .write ∧ rest = [""]) := fun hlast => h.rest_ne hlast.1 hlast.2
  have hsize : ¬ maxNameBytes < name.utf8ByteSize := Nat.not_lt.mpr h.size_le
  rw [followLinks_eq, follow, if_neg h.not_stays, if_neg h.ne_up, if_neg hwrite]
  exact if_neg hsize

/-- On a walk that comes to something, a name that does not stay or go up is looked up. -/
theorem descends_of_followLinks (hstay : ¬ (name = "" ∨ name = ".")) (hup : name ≠ "..")
    (h : d.followLinks purpose n start (name :: rest) = .ok target) :
    Descends purpose name rest := by
  rw [followLinks_eq, follow, if_neg hstay, if_neg hup] at h
  split at h
  · cases h
  · next hwrite =>
    split at h
    · cases h
    · next hsize =>
      exact ⟨hstay, hup, Nat.not_lt.mp hsize, fun hpurpose hrest => hwrite ⟨hpurpose, hrest⟩⟩

theorem followLinks_blanks {blanks : List String} (h : ∀ b ∈ blanks, b = "" ∨ b = ".") :
    d.followLinks purpose n start blanks = .ok (.present start .folder) := by
  induction blanks with
  | nil => exact followLinks_nil d purpose n start
  | cons b blanks ih =>
    rw [followLinks_stay (h b List.mem_cons_self), ih fun c hc => h c (List.mem_cons_of_mem b hc)]

/-! ## All walks -/

/-- From a folder, with so many links to follow, the names come to the target. -/
inductive Walks (d : Disk) (purpose : Purpose) : Nat → Place → List String → Target → Prop where
  | here (n : Nat) (start : Place) : Walks d purpose n start [] (.present start .folder)
  | stay {n : Nat} {start : Place} {name : String} {rest : List String} {target : Target}
      (hname : name = "" ∨ name = ".") (h : Walks d purpose n start rest target) :
      Walks d purpose n start (name :: rest) target
  | up {n : Nat} {start : Place} {rest : List String} {target : Target}
      (h : Walks d purpose n start.dropLast rest target) :
      Walks d purpose n start (".." :: rest) target
  | free {n : Nat} {start : Place} {name : String} (hname : Descends purpose name [])
      (hnone : d.get? (start ++ [name]) = none) :
      Walks d purpose n start [name] (.absent (start ++ [name]))
  | file {n : Nat} {start : Place} {name : String} {bytes : ByteArray}
      (hname : Descends purpose name []) (hfile : d.get? (start ++ [name]) = some (.file bytes)) :
      Walks d purpose n start [name] (.present (start ++ [name]) (.file bytes))
  | link {n : Nat} {start : Place} {name text : String} (hpurpose : purpose = .make)
      (hname : Descends purpose name []) (hlink : d.get? (start ++ [name]) = some (.link text)) :
      Walks d purpose n start [name] (.present (start ++ [name]) (.link text))
  | down {n : Nat} {start : Place} {name : String} {rest : List String} {target : Target}
      (hname : Descends purpose name rest) (hfolder : d.get? (start ++ [name]) = some .folder)
      (h : Walks d purpose n (start ++ [name]) rest target) :
      Walks d purpose n start (name :: rest) target
  | through {n : Nat} {start : Place} {name text : String} {rest : List String} {target : Target}
      (hname : Descends purpose name rest) (hlink : d.get? (start ++ [name]) = some (.link text))
      (hlast : ¬ (rest.isEmpty = true ∧ purpose = .make))
      (h : Walks d purpose n (origin start text) (namesToEnd text ++ rest) target) :
      Walks d purpose (n + 1) start (name :: rest) target

theorem Walks.followLinks_eq_ok (h : Walks d purpose n start names target) :
    d.followLinks purpose n start names = .ok target := by
  induction h with
  | here n start => exact followLinks_nil d purpose n start
  | stay hname _ ih => rwa [followLinks_stay hname]
  | up _ ih => rwa [followLinks_up]
  | free hname hnone => simp [followLinks_down hname, hnone]
  | file hname hfile => simp [followLinks_down hname, hfile]
  | link hpurpose hname hlink =>
    subst hpurpose
    simp [followLinks_down hname, hlink]
  | down hname hfolder _ ih =>
    rw [followLinks_down hname, hfolder]
    exact ih
  | through hname hlink hlast _ ih =>
    rw [followLinks_down hname, hlink]
    dsimp only
    rwa [if_neg hlast]

theorem walks_of_followLinks (h : d.followLinks purpose n start names = .ok target) :
    Walks d purpose n start names target := by
  -- A link takes one of the links that may be followed, any other name one of the names.
  induction n using Nat.strongRecOn generalizing start names with
  | ind n ihn =>
    induction names generalizing start with
    | nil =>
      rw [followLinks_nil] at h
      cases h
      exact .here n start
    | cons name rest ih =>
      by_cases hstay : name = "" ∨ name = "."
      · rw [followLinks_stay hstay] at h
        exact .stay hstay (ih h)
      by_cases hup : name = ".."
      · subst hup
        rw [followLinks_up] at h
        exact .up (ih h)
      have hname := descends_of_followLinks hstay hup h
      rw [followLinks_down hname] at h
      split at h
      · next hnone =>
        split at h
        · next hlast =>
          cases h
          obtain rfl := List.isEmpty_iff.mp hlast
          exact .free hname hnone
        · cases h
      · next hfolder => exact .down hname hfolder (ih h)
      · next bytes hfile =>
        split at h
        · next hlast =>
          cases h
          obtain rfl := List.isEmpty_iff.mp hlast
          exact .file hname hfile
        · cases h
      · next text hlink =>
        split at h
        · next hlast =>
          cases h
          obtain rfl := List.isEmpty_iff.mp hlast.1
          exact .link hlast.2 hname hlink
        · next hlast =>
          cases n with
          | zero => cases h
          | succ n => exact .through hname hlink hlast (ihn n (Nat.lt_succ_self n) h)

theorem walks_iff : Walks d purpose n start names target ↔
    d.followLinks purpose n start names = .ok target :=
  ⟨Walks.followLinks_eq_ok, walks_of_followLinks⟩

/-- What a walk to write a file comes to is also reached. -/
theorem Walks.reach (h : Walks d .write n start names target) :
    Walks d .reach n start names target := by
  induction h with
  | here n start => exact .here n start
  | stay hname _ ih => exact .stay hname ih
  | up _ ih => exact .up ih
  | free hname hnone => exact .free hname.reach hnone
  | file hname hfile => exact .file hname.reach hfile
  | link hpurpose => cases hpurpose
  | down hname hfolder _ ih => exact .down hname.reach hfolder ih
  | through hname hlink _ _ ih => exact .through hname.reach hlink (by simp) ih

/-! ## Walks to a folder -/

/-- What goes on behind names that lead to a folder is walked from there. -/
theorem Leads.followLinks_append (h : Leads d n start names m place)
    (hrest : purpose = .reach ∨ (rest ≠ [] ∧ rest ≠ [""])) :
    d.followLinks purpose n start (names ++ rest) = d.followLinks purpose m place rest := by
  -- None of the steps is the last one of the walk.
  have hwrite (before : List String) : purpose = .write → before ++ rest ≠ [""] := by
    rintro rfl heq
    have hrest := hrest.resolve_left (by decide)
    rcases List.append_eq_singleton_iff.mp heq with ⟨-, h⟩ | ⟨-, h⟩
    · exact hrest.2 h
    · exact hrest.1 h
  have hmake (before : List String) : ¬ ((before ++ rest).isEmpty = true ∧ purpose = .make) := by
    rintro ⟨hempty, rfl⟩
    have hrest := hrest.resolve_left (by decide)
    rw [List.isEmpty_iff, List.append_eq_nil_iff] at hempty
    exact hrest.1 hempty.2
  induction h with
  | here => rfl
  | stay hname _ ih => rw [List.cons_append, followLinks_stay hname, ih]
  | up _ ih => rw [List.cons_append, followLinks_up, ih]
  | down hstay hup hsize hfolder _ ih =>
    rw [List.cons_append, followLinks_down ⟨hstay, hup, hsize, hwrite _⟩, hfolder]
    exact ih
  | through hstay hup hsize hlink _ ih =>
    rw [List.cons_append, followLinks_down ⟨hstay, hup, hsize, hwrite _⟩, hlink]
    dsimp only
    rw [if_neg (hmake _), ← List.append_assoc]
    exact ih

theorem Leads.followLinks_reach (h : Leads d n start names m place) :
    d.followLinks .reach n start names = .ok (.present place .folder) := by
  have happend : d.followLinks .reach n start (names ++ []) = d.followLinks .reach m place [] :=
    h.followLinks_append (.inl rfl)
  rwa [List.append_nil, followLinks_nil] at happend

/-- Where names lead to a folder, there is something. -/
theorem Leads.followLinks_make (h : Leads d n start names m place) :
    ∃ found entry, d.followLinks .make n start names = .ok (.present found entry) := by
  induction h with
  | here n place => exact ⟨place, .folder, followLinks_nil d .make n place⟩
  | stay hname _ ih => rwa [followLinks_stay hname]
  | up _ ih => rwa [followLinks_up]
  | down hstay hup hsize hfolder _ ih =>
    rw [followLinks_down ⟨hstay, hup, hsize, by simp⟩, hfolder]
    exact ih
  | through hstay hup hsize hlink _ ih =>
    rw [followLinks_down ⟨hstay, hup, hsize, by simp⟩, hlink]
    dsimp only
    split
    · exact ⟨_, _, rfl⟩
    · exact ih

/-- A walk stays the same while folders and links stay where they are. -/
theorem Leads.mono (h : Leads d n start names m place)
    (hfolders : ∀ q, d.get? q = some .folder → d'.get? q = some .folder)
    (hlinks : ∀ q target, d.get? q = some (.link target) → d'.get? q = some (.link target)) :
    Leads d' n start names m place := by
  induction h with
  | here n place => exact .here n place
  | stay hname _ ih => exact .stay hname ih
  | up _ ih => exact .up ih
  | down hstay hup hsize hfolder _ ih => exact .down hstay hup hsize (hfolders _ hfolder) ih
  | through hstay hup hsize hlink _ ih => exact .through hstay hup hsize (hlinks _ _ hlink) ih

/-- Two walks, one behind the other. -/
theorem Leads.append {k : Nat} {there : Place} (h : Leads d n start names m place)
    (hrest : Leads d m place rest k there) : Leads d n start (names ++ rest) k there := by
  induction h with
  | here => exact hrest
  | stay hname _ ih => exact .stay hname (ih hrest)
  | up _ ih => exact .up (ih hrest)
  | down hstay hup hsize hfolder _ ih => exact .down hstay hup hsize hfolder (ih hrest)
  | through hstay hup hsize hlink _ ih =>
    rw [List.cons_append]
    refine .through hstay hup hsize hlink ?_
    rw [← List.append_assoc]
    exact ih hrest

/-- A walk that goes on behind some names, or that comes to a folder there, is led to a folder
    by them. -/
theorem Walks.exists_leads (h : Walks d purpose n start (names ++ rest) target)
    (hend : rest ≠ [] ∨ ∃ place, target = .present place .folder) :
    ∃ m place, Leads d n start names m place ∧ Walks d purpose m place rest target := by
  generalize hall : names ++ rest = all at h
  -- The names end before the step, or the step is one of theirs.
  induction h generalizing names with
  | here n start =>
    obtain ⟨rfl, rfl⟩ := List.append_eq_nil_iff.mp hall
    exact ⟨n, start, .here n start, .here n start⟩
  | stay hname h ih =>
    obtain ⟨rfl, rfl⟩ | ⟨before, rfl, rfl⟩ := List.append_eq_cons_iff.mp hall
    · exact ⟨_, _, .here _ _, .stay hname h⟩
    · obtain ⟨m, place, hleads, hrest⟩ := ih hend rfl
      exact ⟨m, place, .stay hname hleads, hrest⟩
  | up h ih =>
    obtain ⟨rfl, rfl⟩ | ⟨before, rfl, rfl⟩ := List.append_eq_cons_iff.mp hall
    · exact ⟨_, _, .here _ _, .up h⟩
    · obtain ⟨m, place, hleads, hrest⟩ := ih hend rfl
      exact ⟨m, place, .up hleads, hrest⟩
  | down hname hfolder h ih =>
    obtain ⟨rfl, rfl⟩ | ⟨before, rfl, rfl⟩ := List.append_eq_cons_iff.mp hall
    · exact ⟨_, _, .here _ _, .down hname hfolder h⟩
    · obtain ⟨m, place, hleads, hrest⟩ := ih hend rfl
      exact ⟨m, place, .down hname.not_stays hname.ne_up hname.size_le hfolder hleads, hrest⟩
  | through hname hlink hlast h ih =>
    obtain ⟨rfl, rfl⟩ | ⟨before, rfl, rfl⟩ := List.append_eq_cons_iff.mp hall
    · exact ⟨_, _, .here _ _, .through hname hlink hlast h⟩
    · obtain ⟨m, place, hleads, hrest⟩ := ih hend (List.append_assoc _ _ _)
      exact ⟨m, place, .through hname.not_stays hname.ne_up hname.size_le hlink hleads, hrest⟩
  | free hname hnone =>
    obtain ⟨rfl, rfl⟩ | ⟨before, rfl, hnil⟩ := List.append_eq_cons_iff.mp hall
    · exact ⟨_, _, .here _ _, .free hname hnone⟩
    · simp [(List.append_eq_nil_iff.mp hnil.symm).2] at hend
  | file hname hfile =>
    obtain ⟨rfl, rfl⟩ | ⟨before, rfl, hnil⟩ := List.append_eq_cons_iff.mp hall
    · exact ⟨_, _, .here _ _, .file hname hfile⟩
    · simp [(List.append_eq_nil_iff.mp hnil.symm).2] at hend
  | link hpurpose hname hlink =>
    obtain ⟨rfl, rfl⟩ | ⟨before, rfl, hnil⟩ := List.append_eq_cons_iff.mp hall
    · exact ⟨_, _, .here _ _, .link hpurpose hname hlink⟩
    · simp [(List.append_eq_nil_iff.mp hnil.symm).2] at hend

/-- A path that is found to be a folder leads there, with or without slashes and single
    dots at its end. -/
theorem leads_of_followLinks {blanks : List String} (hblanks : ∀ b ∈ blanks, b = "" ∨ b = ".")
    (h : d.followLinks .reach n start (names ++ blanks) = .ok (.present place .folder)) :
    ∃ m, Leads d n start names m place := by
  obtain ⟨m, there, hleads, hrest⟩ := (walks_iff.mpr h).exists_leads (.inr ⟨place, rfl⟩)
  have hthere := hrest.followLinks_eq_ok
  rw [followLinks_blanks hblanks] at hthere
  cases hthere
  exact ⟨m, hleads⟩

/-- Names of folders, one in the other, lead down. -/
theorem leads_down (hnames : ∀ s ∈ names, IsName s)
    (hfolders : ∀ above, above ≠ [] → above <+: names → d.get? (start ++ above) = some .folder) :
    Leads d n start names n (start ++ names) := by
  induction names generalizing start with
  | nil => exact (List.append_nil start).symm ▸ .here n start
  | cons name rest ih =>
    have hname := hnames name List.mem_cons_self
    have hfirst := hfolders [name] (by simp) (by simp)
    have hrest : ∀ above, above ≠ [] → above <+: rest →
        d.get? (start ++ [name] ++ above) = some .folder := by
      intro above _ hpre
      have hlonger := hfolders (name :: above) (by simp) (by simpa using hpre)
      rwa [List.append_cons] at hlonger
    have hbelow := ih (fun s hs => hnames s (List.mem_cons_of_mem _ hs)) hrest
    rw [List.append_cons]
    exact .down hname.not_stays hname.isStep.ne_up hname.size_le hfirst hbelow

/-! ## Names that lead down -/

/-- The last name is looked up in the folder that the others lead to. -/
theorem followLinks_singleton (hname : IsName name) :
    d.followLinks purpose n start [name] =
      match d.get? (start ++ [name]) with
      | none => .ok (.absent (start ++ [name]))
      | some .folder => .ok (.present (start ++ [name]) .folder)
      | some (.file bytes) => .ok (.present (start ++ [name]) (.file bytes))
      | some (.link target) =>
        if purpose = .make then .ok (.present (start ++ [name]) (.link target))
        else d.onLinkWithin purpose n (origin start target) (namesToEnd target) := by
  rw [followLinks_down (hname.descends (by simp))]
  split <;> simp

/-- Behind a name with nothing there, all names are missing. -/
theorem followLinks_missing (hname : IsName name) (hnone : d.get? (start ++ [name]) = none)
    (hne : rest ≠ []) (hrest : purpose = .write → rest ≠ [""]) :
    d.followLinks purpose n start (name :: rest) = .error .missing := by
  rw [followLinks_down (hname.descends hrest), hnone]
  dsimp only
  rw [if_neg (by simpa using hne)]

end Disk

end LivePreview
