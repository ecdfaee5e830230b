/-
  LivePreview.Proofs.ExportFrame

  An export changes nothing but what it has to below its root.

  All paths that an export makes go no further than the root and names that lead down from
  it (`Disk.Toward`), and a walk down such names stays below the root where no link leads
  away (`Disk.Walks.inside`).  So each step leaves every place as it was, or adds a
  folder, or writes a file that some entry points to (`Disk.Framed`), and so does every
  export, however it ends (`Disk.exportProject_frame`).
-/

import LivePreview.Proofs.CleanKeys
import LivePreview.Proofs.FolderMaking

namespace LivePreview

namespace Disk

open LivePreview.Path

variable {d d' d₁ d₂ : Disk} {root path up : String} {place start : Place} {n m : Nat}
  {purpose : Purpose} {ks us : List String} {files more : List File} {f : File}

/-! ## Paths above a path -/

/-- A parent ends before a slash. -/
theorem exists_of_parent? (h : parent? path = some up) : up = "" ∨
    ∃ before behind, path.toList = before ++ '/' :: behind ∧
      up = trimEnd (String.ofList (before ++ ['/'])) := by
  obtain ⟨idle, hidle, -⟩ := exists_trimReversed path.toList.reverse
  unfold parent? at h
  generalize trimReversed path.toList.reverse = trimmed at h hidle
  have hsplit : trimmed.takeWhile (· != '/') ++ trimmed.dropWhile (· != '/') = trimmed :=
    List.takeWhile_append_dropWhile
  have hslash := List.head?_dropWhile_not (· != '/') trimmed
  split at h
  · cases h
  · cases h
  · cases hrest : trimmed.dropWhile (· != '/') with
    | nil =>
      rw [hrest] at h
      exact .inl (by simpa [trimReversed] using h.symm)
    | cons c rest =>
      rw [hrest] at h hsplit hslash
      obtain rfl : c = '/' := by simpa using hslash
      have hpath : path.toList = rest.reverse ++
          '/' :: (idle ++ trimmed.takeWhile (· != '/')).reverse := by
        rw [← List.reverse_reverse path.toList, hidle]
        conv_lhs => rw [← hsplit]
        simp
      exact .inr ⟨rest.reverse, _, hpath, by simpa [trimEnd] using h.symm⟩

theorem names_ofList_append_slash (before behind : List Char) :
    names (String.ofList (before ++ '/' :: behind)) =
      names (String.ofList before) ++ names (String.ofList behind) := by
  simp [names, List.splitOn_append_cons_self]

/-- Above a path, its names end earlier. -/
theorem names_parent?_isPrefix (h : parent? path = some up) : names up <+: names path := by
  rcases exists_of_parent? h with rfl | ⟨before, behind, hpath, rfl⟩
  · exact List.nil_prefix
  · have hnames := names_ofList_append_slash before behind
    rw [← hpath, String.ofList_toList] at hnames
    obtain ⟨k, hk⟩ := names_trimEnd (String.ofList (before ++ ['/']))
    rw [names_ofList_append_slash] at hk
    have hfront : names (String.ofList before) =
        names (trimEnd (String.ofList (before ++ ['/']))) ++ List.replicate k "." := by
      simpa [names] using hk
    rw [hnames, hfront, List.append_assoc]
    exact List.prefix_append _ _

theorem toList_parent?_isPrefix (h : parent? path = some up) : up.toList <+: path.toList := by
  rcases exists_of_parent? h with rfl | ⟨before, behind, hpath, rfl⟩
  · exact List.nil_prefix
  · have hpre := toList_trimEnd_isPrefix (String.ofList (before ++ ['/']))
    rw [String.toList_ofList] at hpre
    refine hpre.trans ⟨behind, ?_⟩
    rw [hpath, List.append_assoc, List.singleton_append]

theorem isAbsolute_of_isPrefix (hne : up ≠ "") (hpre : up.toList <+: path.toList) :
    isAbsolute up = isAbsolute path := by
  obtain ⟨c, cs, hcs⟩ := List.exists_cons_of_ne_nil (l := up.toList) (by simpa using hne)
  obtain ⟨rest, hrest⟩ := hpre
  rw [isAbsolute, isAbsolute, ← hrest, hcs]
  rfl

/-- The path begins like the root, and goes no further than some names behind it. -/
structure Toward (root : String) (ks : List String) (path : String) : Prop where
  ne_empty : path ≠ ""
  isAbsolute_eq : isAbsolute path = isAbsolute root
  isPrefix : names path <+: names root ++ ks

theorem toward_joinPath (hroot : root ≠ "") (hpath : isAbsolute path = false) :
    Toward root (names path) (joinPath root path) := by
  refine ⟨?_, isAbsolute_joinPath hroot hpath, ?_⟩
  · rw [joinPath_eq hroot hpath]
    split <;> simp [hroot]
  · rw [names_joinPath hroot hpath]

theorem Toward.parent? (h : Toward root ks path) (hup : parent? path = some up) (hne : up ≠ "") :
    Toward root ks up :=
  ⟨hne, (isAbsolute_of_isPrefix hne (toList_parent?_isPrefix hup)).trans h.isAbsolute_eq,
    (names_parent?_isPrefix hup).trans h.isPrefix⟩

theorem Toward.ancestors (h : Toward root ks path) : ∀ t ∈ ancestors path, Toward root ks t := by
  -- By the fuel.  The empty path may come up as the last parent; nothing is said of it.
  have hall : ∀ k path, (path ≠ "" → Toward root ks path) → ∀ t ∈ ancestorsWithin k path,
      Toward root ks t := by
    intro k
    induction k with
    | zero => intro path _ t ht; cases ht
    | succ k ih =>
      intro path hpath t ht
      rw [ancestorsWithin] at ht
      split at ht
      · cases ht
      · next up hup =>
        have hne : path ≠ "" := by
          rintro rfl
          simp [Disk.parent?, trimReversed] at hup
        rcases List.mem_cons.mp ht with rfl | ht
        · exact hpath hne
        · exact ih up (fun hne' => (hpath hne).parent? hup hne') t ht
  exact hall _ path fun _ => h

/-! ## Walking below a place -/

/-- Nothing below the place is a link. -/
def Linkless (d : Disk) (place : Place) : Prop :=
  ∀ s ≠ [], ∀ target, d.get? (place ++ s) ≠ some (.link target)

/-- The names that lead down; the empty name and the single dot stay. -/
def steps (names : List String) : Place := names.filter fun s => decide (¬(s = "" ∨ s = "."))

theorem steps_stay {name : String} {rest : List String} (h : name = "" ∨ name = ".") :
    steps (name :: rest) = steps rest :=
  List.filter_cons_of_neg (by rwa [decide_eq_true_eq, not_not])

theorem steps_down {name : String} {rest : List String} (h : ¬(name = "" ∨ name = ".")) :
    steps (name :: rest) = name :: steps rest :=
  List.filter_cons_of_pos (decide_eq_true h)

/-- What a walk down from a place comes to: a folder, a file, or nothing yet. -/
def Arrives (d : Disk) (q : Place) : Target → Prop
  | .present found .folder => found = q
  | .present found (.file bytes) => found = q ∧ d.get? q = some (.file bytes)
  | .present _ (.link _) => False
  | .absent found => found = q ∧ d.get? q = none

/-- Without links and without going up, a walk from a place ends where its steps lead. -/
theorem Walks.inside {target : Target} (h : Walks d purpose n (place ++ us) ks target)
    (hlinks : Linkless d place) (hup : ".." ∉ ks) :
    (∃ found, target = .present found .folder) ∨
      steps ks ≠ [] ∧ Arrives d (place ++ us ++ steps ks) target := by
  generalize hstart : place ++ us = start at h
  induction h generalizing us with
  | here => exact .inl ⟨_, rfl⟩
  | stay hname _ ih =>
    rw [steps_stay hname]
    exact ih (List.not_mem_of_not_mem_cons hup) hstart
  | up => exact absurd List.mem_cons_self hup
  | free hname hnone =>
    rw [steps_down hname.not_stays]
    exact .inr ⟨List.cons_ne_nil _ _, rfl, hnone⟩
  | file hname hfile =>
    rw [steps_down hname.not_stays]
    exact .inr ⟨List.cons_ne_nil _ _, rfl, hfile⟩
  | down hname _ _ ih =>
    subst hstart
    rw [steps_down hname.not_stays, List.append_cons]
    rw [List.append_assoc place us] at ih ⊢
    exact (ih (List.not_mem_of_not_mem_cons hup) rfl).imp_right fun hdown =>
      ⟨by simp, hdown.2⟩
  | link _ _ hlink | through _ hlink =>
    -- There is no link below the place.
    rw [← hstart, List.append_assoc] at hlink
    exact absurd hlink (hlinks _ (by simp) _)

/-- The first names of a walk to a folder lead to a folder. -/
theorem Leads.of_isPrefix (h : Leads d n start ks m place) (hpre : us <+: ks) :
    ∃ m' there, Leads d n start us m' there := by
  obtain ⟨rest, rfl⟩ := hpre
  obtain ⟨m', there, hleads, -⟩ :=
    (walks_iff.mpr h.followLinks_reach).exists_leads (.inr ⟨place, rfl⟩)
  exact ⟨m', there, hleads⟩

/-- Nothing can be written where names lead to a folder. -/
theorem Leads.followLinks_write (h : Leads d n start ks m place) {blanks : List String}
    (hblanks : ∀ b ∈ blanks, b = "" ∨ b = ".") {target : Target}
    (hwrite : d.followLinks .write n start (ks ++ blanks) = .ok target) :
    target = .present place .folder := by
  have hreach := (walks_iff.mpr hwrite).reach.followLinks_eq_ok
  rw [h.followLinks_append (.inl rfl), followLinks_blanks hblanks] at hreach
  exact (Except.ok.inj hreach).symm

/-! ## What an export changes -/

/-- The file is to be written down these names: its path leads down, marks no folder, and has
    these names once empty names and single dots are left out. -/
structure PointsTo (f : File) (s : Place) : Prop where
  isContained : isContained f.path = true
  unmarked : markedFolder? f.path = none
  steps_eq : steps (names f.path) = s

/-- At a place there is what was there before, or below the root a new folder, or there is
    the text of a file that points there, where nothing or another file was. -/
def Kept (d : Disk) (place : Place) (files : List File) (d' : Disk) (q : Place) : Prop :=
  d'.get? q = d.get? q ∨ ∃ s, s ≠ [] ∧ q = place ++ s ∧
    (d.get? q = none ∧ d'.get? q = some .folder ∨
      ∃ f ∈ files, PointsTo f s ∧ (d.get? q = none ∨ ∃ old, d.get? q = some (.file old)) ∧
        d'.get? q = some (.file f.content.toUTF8))

/-- Of two disks, the second is what some files may make of the first one below a place. -/
structure Framed (d : Disk) (place : Place) (files : List File) (d' : Disk) : Prop where
  here : d'.here = d.here
  kept : ∀ q, Kept d place files d' q

theorem Framed.refl (d : Disk) (place : Place) (files : List File) : Framed d place files d :=
  ⟨rfl, fun _ => .inl rfl⟩

theorem Framed.mono (h : Framed d place files d') (hsub : files ⊆ more) :
    Framed d place more d' := by
  refine ⟨h.here, fun q => (h.kept q).imp_right ?_⟩
  rintro ⟨s, hne, hq, hnew | ⟨f, hf, hrest⟩⟩
  · exact ⟨s, hne, hq, .inl hnew⟩
  · exact ⟨s, hne, hq, .inr ⟨f, hsub hf, hrest⟩⟩

theorem Framed.trans (h : Framed d place files d₁) (h' : Framed d₁ place files d₂) :
    Framed d place files d₂ := by
  refine ⟨h'.here.trans h.here, fun q => ?_⟩
  rcases h'.kept q with hsame | ⟨s, hne, hq, ⟨hnone, hfolder⟩ | ⟨f, hf, hpoints, hold, hfile⟩⟩
  · rw [Kept, hsame]
    exact h.kept q
  · -- Where nothing is after the first change there was nothing before it.
    rcases h.kept q with hsame | ⟨_, -, -, ⟨-, hfolder'⟩ | ⟨_, -, -, -, hfile'⟩⟩
    · exact .inr ⟨s, hne, hq, .inl ⟨hsame ▸ hnone, hfolder⟩⟩
    · rw [hnone] at hfolder'
      cases hfolder'
    · rw [hnone] at hfile'
      cases hfile'
  · refine .inr ⟨s, hne, hq, .inr ⟨f, hf, hpoints, ?_, hfile⟩⟩
    rcases h.kept q with hsame | ⟨_, -, -, ⟨-, hfolder'⟩ | ⟨_, -, -, hold', -⟩⟩
    · rwa [hsame] at hold
    · rw [hfolder'] at hold
      obtain hnone | ⟨_, hsome⟩ := hold
      · cases hnone
      · cases hsome
    · exact hold'

theorem Framed.put {s : Place} {entry : Entry} (hne : s ≠ [])
    (hentry : d.get? (place ++ s) = none ∧ entry = .folder ∨
      ∃ f ∈ files, PointsTo f s ∧
        (d.get? (place ++ s) = none ∨ ∃ old, d.get? (place ++ s) = some (.file old)) ∧
        entry = .file f.content.toUTF8) :
    Framed d place files (d.put (place ++ s) entry) := by
  refine ⟨rfl, fun q => ?_⟩
  by_cases hq : q = place ++ s
  · subst hq
    have hplace : place ++ s ≠ [] := by simp [hne]
    have hself := get?_put_self hplace d entry
    refine .inr ⟨s, hne, rfl, ?_⟩
    rw [hself]
    simpa using hentry
  · exact .inl (get?_put_of_ne hq d entry)

/-- The root leads to the place, and below that there are no links. -/
structure Encloses (d : Disk) (root : String) (place : Place) (m : Nat) : Prop where
  root_ne_empty : root ≠ ""
  leads : Leads d 40 (origin d.here root) (names root) m place
  linkless : Linkless d place

theorem Framed.get?_of_ne_file (h : Framed d place files d') {q : Place} {entry : Entry}
    (hq : d.get? q = some entry) (hentry : ∀ bytes, entry ≠ .file bytes) :
    d'.get? q = some entry := by
  rcases h.kept q with hsame | ⟨_, -, -, ⟨hnone, -⟩ | ⟨_, -, -, hnone | ⟨old, hold⟩, -⟩⟩
  · rwa [hsame]
  · rw [hq] at hnone
    cases hnone
  · rw [hq] at hnone
    cases hnone
  · rw [hq] at hold
    exact absurd (Option.some.inj hold) (hentry old)

/-- The root goes on to lead to the place, and no links come up below it. -/
theorem Encloses.of_framed (h : Encloses d root place m) (hframed : Framed d place files d') :
    Encloses d' root place m := by
  refine ⟨h.root_ne_empty, ?_, fun s hne target hlink => ?_⟩
  · rw [hframed.here]
    exact h.leads.mono (fun q hq => hframed.get?_of_ne_file hq (by simp))
      fun q target hq => hframed.get?_of_ne_file hq (by simp)
  · rcases hframed.kept (place ++ s) with hsame | ⟨_, -, -, ⟨-, hnew⟩ | ⟨_, -, -, -, hnew⟩⟩
    · exact h.linkless s hne target (hsame ▸ hlink)
    · rw [hlink] at hnew
      cases hnew
    · rw [hlink] at hnew
      cases hnew

/-! ## The steps of an export -/

theorem ne_blank_of_mem_names {name : String} (h : name ∈ names path) : name ≠ "" :=
  (isSegment_of_mem_segments h).1

/-- Where something can be made on the way down, there is nothing yet, below the place. -/
theorem Encloses.exists_of_absent (h : Encloses d root place m) (hup : ".." ∉ ks)
    (htoward : Toward root ks path) {q : Place}
    (hresolve : d.resolve .make path = .ok (.absent q)) :
    ∃ s, s ≠ [] ∧ q = place ++ s ∧ d.get? q = none := by
  unfold resolve at hresolve
  split at hresolve
  · cases hresolve
  · have horigin : origin d.here path = origin d.here root := by
      rw [origin, origin, htoward.isAbsolute_eq]
    rw [if_pos rfl, horigin] at hresolve
    -- On the way to the root there is something already.
    have hroot : ¬ names path <+: names root := by
      intro hpre
      obtain ⟨_, _, hleads⟩ := h.leads.of_isPrefix hpre
      obtain ⟨_, _, hpresent⟩ := hleads.followLinks_make
      rw [hpresent] at hresolve
      cases hresolve
    obtain ⟨ts, hts⟩ := (List.prefix_or_prefix_of_prefix htoward.isPrefix
      (List.prefix_append (names root) ks)).resolve_left hroot
    have hne : ts ≠ [] := by
      rintro rfl
      exact hroot ⟨[], by simpa using hts.symm⟩
    have hpre : ts <+: ks := by
      have hall := htoward.isPrefix
      rwa [← hts, List.prefix_append_right_inj] at hall
    have hblank : ts ≠ [""] := by
      rintro rfl
      have hmem : "" ∈ names path := by simp [← hts]
      exact ne_blank_of_mem_names hmem rfl
    rw [← hts, h.leads.followLinks_append (.inr ⟨hne, hblank⟩), ← List.append_nil place] at hresolve
    have hdotdot : ".." ∉ ts := fun hmem => hup (hpre.subset hmem)
    rcases (walks_iff.mpr hresolve).inside h.linkless hdotdot with
      ⟨_, hfolder⟩ | ⟨hdown, rfl, hnone⟩
    · cases hfolder
    · rw [List.append_nil] at hnone ⊢
      exact ⟨_, hdown, rfl, hnone⟩

theorem Encloses.makeFolder (h : Encloses d root place m) (hup : ".." ∉ ks)
    (htoward : Toward root ks path) : Framed d place [] (d.makeFolder path).2 := by
  unfold Disk.makeFolder make
  split
  · exact .refl d place []
  · exact .refl d place []
  · next q hresolve =>
    obtain ⟨s, hne, rfl, hnone⟩ := h.exists_of_absent hup htoward hresolve
    exact .put hne (.inl ⟨hnone, rfl⟩)

theorem Encloses.makeFoldersFrom (h : Encloses d root place m) (hup : ".." ∉ ks)
    {paths : List String} (htoward : ∀ t ∈ paths, Toward root ks t) :
    Framed d place [] (d.makeFoldersFrom paths).2 :=
  makeFoldersFrom_induction (.refl d place []) fun _ hframed path hpath =>
    hframed.trans ((h.of_framed hframed).makeFolder hup (htoward path hpath))

/-- Making folders on the way down adds folders, and nothing else happens. -/
theorem Encloses.exportFolder (h : Encloses d root place m) (hup : ".." ∉ ks)
    (htoward : Toward root ks path) : Framed d place [] (d.exportFolder path).2 :=
  h.makeFoldersFrom hup htoward.ancestors

theorem steps_append_blanks {blanks : List String} (h : ∀ b ∈ blanks, b = "" ∨ b = ".")
    (ks : List String) : steps (ks ++ blanks) = steps ks := by
  have hblanks : steps blanks = [] :=
    List.filter_eq_nil_iff.mpr fun b hb => by rw [decide_eq_true_eq, not_not]; exact h b hb
  rw [steps, List.filter_append, ← steps, ← steps, hblanks, List.append_nil]

/-- A path that leads down from the root is written below the place, if at all. -/
theorem Encloses.arrives_of_write (h : Encloses d root place m) (hpath : isAbsolute path = false)
    (hup : ".." ∉ names path) {target : Target}
    (hresolve : d.resolve .write (joinPath root path) = .ok target) :
    (∃ found, target = .present found .folder) ∨
      steps (names path) ≠ [] ∧ Arrives d (place ++ steps (names path)) target := by
  unfold resolve at hresolve
  split at hresolve
  · cases hresolve
  · obtain ⟨blanks, hblanks, hnames⟩ := exists_namesToEnd (joinPath root path)
    have horigin : origin d.here (joinPath root path) = origin d.here root := by
      rw [origin, origin, isAbsolute_joinPath h.root_ne_empty hpath]
    rw [if_neg (by simp), hnames, names_joinPath h.root_ne_empty hpath, horigin] at hresolve
    by_cases hnil : names path = []
    · -- The path is that of the root, which is a folder.
      rw [hnil, List.append_nil] at hresolve
      exact .inl ⟨place, h.leads.followLinks_write hblanks hresolve⟩
    · have hnot : names path ++ blanks ≠ [""] := by
        obtain ⟨name, rest, hcons⟩ := List.exists_cons_of_ne_nil hnil
        rw [hcons, List.cons_append]
        intro heq
        exact ne_blank_of_mem_names (hcons ▸ List.mem_cons_self) (List.cons.inj heq).1
      have hup' : ".." ∉ names path ++ blanks := by
        rw [List.mem_append, not_or]
        exact ⟨hup, fun hmem => absurd (hblanks _ hmem) (by decide)⟩
      rw [List.append_assoc, h.leads.followLinks_append (.inr ⟨by simp [hnil], hnot⟩),
        ← List.append_nil place] at hresolve
      have hinside := (walks_iff.mpr hresolve).inside h.linkless hup'
      rwa [steps_append_blanks hblanks, List.append_nil] at hinside

theorem names_of_isContained (h : isContained path = true) :
    isAbsolute path = false ∧ ".." ∉ names path := by
  simp only [isContained, Bool.and_eq_true, Bool.not_eq_true'] at h
  refine ⟨h.1.1, fun hmem => ?_⟩
  obtain ⟨cs, hcs, hdots⟩ := List.mem_map.mp hmem
  have hsegment : cs = ['.', '.'] := by
    rw [← String.toList_ofList (l := cs), hdots]
    rfl
  have hall := h.2
  rw [hsegment] at hcs
  simp [(List.mem_filter.mp hcs).1] at hall

theorem Encloses.writeText (h : Encloses d root place m) (hcontained : isContained f.path = true)
    (hunmarked : markedFolder? f.path = none) :
    Framed d place [f] (d.writeText (joinPath root f.path) f.content).2 := by
  obtain ⟨hpath, hup⟩ := names_of_isContained hcontained
  have hpoints : PointsTo f (steps (names f.path)) := ⟨hcontained, hunmarked, rfl⟩
  unfold Disk.writeText writeBytes
  split
  · exact .refl d place [f]
  · next q old hresolve =>
    rcases h.arrives_of_write hpath hup hresolve with ⟨_, hfolder⟩ | ⟨hne, rfl, hold⟩
    · cases hfolder
    · exact .put hne (.inr ⟨f, by simp, hpoints, .inr ⟨old, hold⟩, rfl⟩)
  · next q hresolve =>
    rcases h.arrives_of_write hpath hup hresolve with ⟨_, hfolder⟩ | ⟨hne, rfl, hnone⟩
    · cases hfolder
    · exact .put hne (.inr ⟨f, by simp, hpoints, .inl hnone, rfl⟩)
  · exact .refl d place [f]

/-- A text is written after the folders above it are made. -/
theorem Encloses.exportText (h : Encloses d root place m) (hcontained : isContained f.path = true)
    (hunmarked : markedFolder? f.path = none) :
    Framed d place [f] (d.exportText (joinPath root f.path) f.content).2 := by
  obtain ⟨hpath, hup⟩ := names_of_isContained hcontained
  have htoward := (toward_joinPath h.root_ne_empty hpath).ancestors
  refine exportText_induction (.refl d place [f]) (fun d' hframed up hparent t ht => ?_)
    fun d' hframed => hframed.trans ((h.of_framed hframed).writeText hcontained hunmarked)
  rw [ancestors_of_parent? hparent] at htoward
  have hmade := (h.of_framed hframed).makeFolder hup (htoward t (List.mem_cons_of_mem _ ht))
  exact hframed.trans (hmade.mono (List.nil_subset _))

/-- A marked folder is the beginning of its marker. -/
theorem toList_markedFolder?_isPrefix {folder : String} (h : markedFolder? path = some folder) :
    folder ≠ "" ∧ folder.toList <+: path.toList := by
  have hparent : (Path.parent path).toList <+: path.toList := by
    unfold Path.parent
    split
    · next before last hsplit =>
      rw [(Text.splitLast_eq_some_iff.mp hsplit).1, String.toList_ofList]
      exact List.prefix_append _ _
    · exact List.nil_prefix
  have hpre := (trimEndSlashes_isPrefix _).trans hparent
  unfold markedFolder? at h
  split at h
  · split at h
    · cases h
    · next hne =>
      rw [← Option.some.inj h, String.toList_ofList]
      exact ⟨by simpa using hne, hpre⟩
  · cases h

/-- The marked folder is relative and does not go up, where the marker does not. -/
theorem names_of_markedFolder? {folder : String} (hcontained : isContained path = true)
    (hmarked : markedFolder? path = some folder) :
    isAbsolute folder = false ∧ ".." ∉ names folder := by
  obtain ⟨hpath, hup⟩ := names_of_isContained hcontained
  have hsegments := segments_of_isMarker (isMarker_of_markedFolder? hmarked)
  rw [hmarked] at hsegments
  refine ⟨?_, fun hmem => hup ?_⟩
  · obtain ⟨hne, hpre⟩ := toList_markedFolder?_isPrefix hmarked
    rw [isAbsolute_of_isPrefix hne hpre, hpath]
  · change ".." ∈ segments path
    rw [hsegments]
    exact List.mem_append_left _ hmem

theorem Encloses.exportFile (h : Encloses d root place m) (f : File) :
    Framed d place [f] (d.exportFile root f).2 := by
  unfold Disk.exportFile
  split
  · next hcontained =>
    split
    · next folder hmarked =>
      obtain ⟨hpath, hup⟩ := names_of_markedFolder? hcontained hmarked
      have hmade := h.exportFolder hup (toward_joinPath h.root_ne_empty hpath)
      exact hmade.mono (List.nil_subset _)
    · next hunmarked => exact h.exportText hcontained hunmarked
  · exact .refl d place [f]

theorem Encloses.exportFiles (h : Encloses d root place m) :
    Framed d place files (exportFiles root d files).2 :=
  exportFiles_induction (.refl d place files) fun _ hframed f hf =>
    hframed.trans (((h.of_framed hframed).exportFile f).mono (by simpa using hf))

theorem exists_encloses_of_find (hroot : d.find root = .ok (place, .folder))
    (hlinks : ∀ e ∈ d.below place, ∀ target, e.2 ≠ .link target) :
    ∃ m, Encloses d root place m := by
  have hlinkless : Linkless d place := by
    intro s hne target hlink
    rw [get?, if_neg (by simp [hne])] at hlink
    exact hlinks (s, .link target) (mem_below.mpr ⟨hne, Entries.mem_of_lookup hlink⟩) target rfl
  obtain ⟨hrefusal, m, hleads⟩ := exists_leads_of_find hroot
  exact ⟨m, (refusal?_eq_none_iff.mp hrefusal).2.1, hleads, hlinkless⟩

/-- An export into a folder without links below it, by whatever way the root leads there,
    whatever the paths of the project, and however it ends.  What is not below the folder is as
    it was; below it nothing goes away, and nothing is changed but files that some entry points
    to, which get its text; and what comes in are folders and such files. -/
theorem exportProject_frame (hroot : d.find root = .ok (place, .folder))
    (hlinks : ∀ e ∈ d.below place, ∀ target, e.2 ≠ .link target) (p : Project) :
    (∀ q, (∀ s, s ≠ [] → q ≠ place ++ s) → (d.exportProject root p).2.get? q = d.get? q) ∧
      (∀ q entry, d.get? q = some entry →
        (d.exportProject root p).2.get? q = some entry ∨
          ∃ f ∈ p.files.values, ∃ s, PointsTo f s ∧ q = place ++ s ∧ (∃ old, entry = .file old) ∧
            (d.exportProject root p).2.get? q = some (.file f.content.toUTF8)) ∧
      ∀ q entry, d.get? q = none → (d.exportProject root p).2.get? q = some entry →
        entry = .folder ∨ ∃ f ∈ p.files.values, ∃ s, PointsTo f s ∧ q = place ++ s ∧
          entry = .file f.content.toUTF8 := by
  obtain ⟨m, h⟩ := exists_encloses_of_find hroot hlinks
  have hframed : Framed d place p.files.values (d.exportProject root p).2 := h.exportFiles
  generalize (d.exportProject root p).2 = d' at hframed ⊢
  refine ⟨fun q hq => ?_, fun q entry hentry => ?_, fun q entry hnone hentry => ?_⟩
  · rcases hframed.kept q with hsame | ⟨s, hne, heq, -⟩
    · exact hsame
    · exact absurd heq (hq s hne)
  · rcases hframed.kept q with
      hsame | ⟨s, -, heq, ⟨hnone, -⟩ | ⟨f, hf, hpoints, hold, hfile⟩⟩
    · exact .inl (hsame.trans hentry)
    · rw [hentry] at hnone
      cases hnone
    · rw [hentry] at hold
      obtain ⟨old, hold⟩ := hold.resolve_left (by simp)
      exact .inr ⟨f, hf, s, hpoints, heq, ⟨old, Option.some.inj hold⟩, hfile⟩
  · rcases hframed.kept q with hsame | ⟨s, -, heq, ⟨-, hfolder⟩ | ⟨f, hf, hpoints, -, hfile⟩⟩
    · rw [hsame, hnone] at hentry
      cases hentry
    · exact .inl (Option.some.inj (hentry.symm.trans hfolder))
    · exact .inr ⟨f, hf, s, hpoints, heq, Option.some.inj (hentry.symm.trans hfile)⟩

/-- A folder with a file in it, and a file beside it. -/
def besideDisk : Disk :=
  ((⟨[(["out"], .folder)], []⟩ : Disk).put ["out", "x.js"] (.file "1".toUTF8)).put ["in.js"]
    (.file "2".toUTF8)

/-- Paths that lead out of a folder, and one that leads through a file. -/
def strayPaths : Project :=
  .ofFiles [("../in.js", "a"), ("/in.js", "b"), ("x.js//./y.js", "c"), ("../.folder", "d")]

theorem exportProject_frame_besideDisk :
    besideDisk.find "out/." = .ok (["out"], .folder) ∧
      (∀ e ∈ besideDisk.below ["out"], ∀ target, e.2 ≠ .link target) ∧
      (besideDisk.exportProject "out/." strayPaths).2.get? ["in.js"] =
        some (.file "2".toUTF8) := by
  have hroot : besideDisk.find "out/." = .ok (["out"], .folder) := by decide
  have hbelow : besideDisk.below ["out"] = [(["x.js"], .file "1".toUTF8)] := by decide
  have hlinks : ∀ e ∈ besideDisk.below ["out"], ∀ target, e.2 ≠ .link target := by
    simp [hbelow]
  have hframe := exportProject_frame hroot hlinks strayPaths
  have houtside := hframe.1 ["in.js"] (by simp)
  exact ⟨hroot, hlinks, houtside.trans (by decide)⟩

end Disk

end LivePreview
