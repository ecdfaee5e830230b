/-
  LivePreview.Proofs.Exporting

  What an export leaves in an empty folder.

  Writing one file adds the folders that are needed for it, and the file if it is not a
  marker (`Opens.exportFile`).  After a list of clean keys, a folder stands exactly where
  one is needed for a key, and a file exactly where a key asks for it
  (`Opens.exportFiles`).
-/

import LivePreview.Proofs.CleanKeys
import LivePreview.Proofs.FolderMaking

namespace LivePreview

namespace Disk

open LivePreview.Path

/-- The file system takes some names behind a root: each of them, and all of them together
    as a path. -/
structure Takes (root : String) (names : List String) : Prop where
  refusal : refusal? (joinPath root (ofSegments names)) = none
  size_le : ∀ s ∈ names, s.utf8ByteSize ≤ maxNameBytes

instance (root : String) (names : List String) : Decidable (Takes root names) :=
  decidable_of_iff (refusal? (joinPath root (ofSegments names)) = none ∧
    ∀ s ∈ names, s.utf8ByteSize ≤ maxNameBytes)
    ⟨fun h => ⟨h.1, h.2⟩, fun h => ⟨h.refusal, h.size_le⟩⟩

variable {d d' d₀ : Disk} {root : String} {place : Place} {m : Nat} {f : File}
  {files rest : List File} {ss : List String} {s : String} {bytes : ByteArray}

/-- With some names, those that they begin with are taken. -/
theorem Takes.of_isPrefix {ts : List String} (h : Takes root ts) (hroot : root ≠ "")
    (hts : ∀ t ∈ ts, IsStep t) (hpre : ss <+: ts) (hne : ss ≠ []) : Takes root ss := by
  refine ⟨?_, fun s hs => h.size_le s (hpre.subset hs)⟩
  have hpath := pathDown_ne_empty hroot ss
  rw [pathDown, if_neg hne] at hpath
  exact refusal?_of_isPrefix hpath (toList_joinPath_isPrefix hroot hts hpre hne) h.refusal

/-! ## One file -/

/-- Below a folder, what a place needs was put there, and everything else is as it was. -/
structure Placed (d : Disk) (place : Place) (p : Tree.Place) (bytes : ByteArray) (d' : Disk) :
    Prop where
  isTree : IsTree d'.entries
  here : d'.here = d.here
  folder : ∀ s, p.Needs s .folder → d'.get? (place ++ s) = some .folder
  file : p.kind = .file → d'.get? (place ++ p.segments) = some (.file bytes)
  kept : ∀ q, (∀ s kind, s ≠ [] → p.Needs s kind → q ≠ place ++ s) → d'.get? q = d.get? q

/-- Nothing is in the way of a place: there are folders or nothing where it needs a folder,
    and nothing where it needs a file. -/
structure IsFree (d : Disk) (place : Place) (p : Tree.Place) : Prop where
  folder : ∀ s, s ≠ [] → p.Needs s .folder →
    d.get? (place ++ s) = none ∨ d.get? (place ++ s) = some .folder
  file : p.kind = .file → d.get? (place ++ p.segments) = none

theorem Placed.get?_eq_some {p : Tree.Place} (h : Placed d place p bytes d')
    (hfree : IsFree d place p) (q : Place) (entry : Entry) (hq : d.get? q = some entry) :
    d'.get? q = some entry := by
  by_cases hput : ∃ s kind, s ≠ [] ∧ p.Needs s kind ∧ q = place ++ s
  · obtain ⟨s, kind, hne, hneeds, rfl⟩ := hput
    cases kind with
    | folder =>
      have hfolder := (hfree.folder s hne hneeds).resolve_left (by simp [hq])
      rw [h.folder s hneeds, ← hq, hfolder]
    | file =>
      obtain ⟨hkind, rfl⟩ := hneeds
      rw [hfree.file hkind] at hq
      cases hq
  · rw [h.kept q fun s kind hne hneeds heq => hput ⟨s, kind, hne, hneeds, heq⟩, hq]

theorem Made.placed (h : Made d place ss d') (hplace : d.get? place = some .folder)
    (bytes : ByteArray) : Placed d place ⟨.folder, ss⟩ bytes d' := by
  refine ⟨h.isTree, h.here, fun s hneeds => h.folder s (Tree.needs_folder_iff.mp hneeds),
    (nomatch ·), ?_⟩
  intro q hq
  by_cases hroot : q = place
  · have hfolder := h.folder [] List.nil_prefix
    rw [List.append_nil] at hfolder
    rw [hroot, hfolder, hplace]
  · refine h.kept q fun above hpre heq => ?_
    by_cases hnil : above = []
    · exact hroot (by rw [heq, hnil, List.append_nil])
    · exact hq above .folder hnil (Tree.needs_folder_iff.mpr hpre) heq

/-- Behind folders that were made, a file is put. -/
theorem Placed.put (h : Placed d place ⟨.folder, ss⟩ bytes d') (hs : IsName s)
    (hnone : d'.get? (place ++ ss ++ [s]) = none) :
    Placed d place ⟨.file, ss ++ [s]⟩ bytes (d'.put (place ++ ss ++ [s]) (.file bytes)) := by
  have habove := h.folder ss (Tree.needs_folder_iff.mpr (List.prefix_refl ss))
  refine ⟨h.isTree.put _ s _ hs habove hnone, h.here, ?_, ?_, ?_⟩
  · intro t hneeds
    have hpre := Tree.needs_file_iff.mp hneeds
    rw [get?_put_of_ne (append_append_ne_of_isPrefix hpre place s).symm,
      h.folder t (Tree.needs_folder_iff.mpr hpre)]
  · intro _
    rw [← List.append_assoc, get?_put_self (by simp)]
  · intro q hq
    rw [get?_put_of_ne, h.kept]
    · intro t kind hne hneeds
      cases kind with
      | file => cases hneeds.1
      | folder =>
        exact hq t .folder hne (Tree.needs_file_iff.mpr (Tree.needs_folder_iff.mp hneeds))
    · rw [List.append_assoc]
      exact hq (ss ++ [s]) .file (by simp) ⟨rfl, rfl⟩

/-- Writing a file with a clean key puts what is needed for it. -/
theorem Opens.exportFile (h : Opens d root place m) (hd : IsTree d.entries)
    (hclean : IsClean f.path) (htakes : Takes root (Tree.placeOf f.path).segments)
    (hfree : IsFree d place (Tree.placeOf f.path)) :
    ∃ d', d.exportFile root f = (.ok (), d') ∧
      Placed d place (Tree.placeOf f.path) f.content.toUTF8 d' := by
  have hnames : ∀ s ∈ (Tree.placeOf f.path).segments, IsName s := fun s hs =>
    ⟨hclean.isStep s ((placeOf_segments_isPrefix f.path).subset hs), htakes.size_le s hs⟩
  unfold Disk.exportFile
  rw [if_pos hclean.isContained]
  cases hmarker : isMarker f.path with
  | true =>
    -- A marker stands for its folder, and nothing else is made.
    obtain ⟨ss, hne, -, hfolder, hkey⟩ := hclean.exists_marker hmarker
    rw [hkey] at htakes hnames hfree ⊢
    have href : refusal? (pathDown root ss) = none := by
      rw [pathDown, if_neg hne]
      exact htakes.refusal
    obtain ⟨d', hmake, hmade⟩ := h.makeFolders_pathDown hd hnames href
      fun above hpre hnil => hfree.folder above hnil (Tree.needs_folder_iff.mpr hpre)
    rw [pathDown, if_neg hne] at hmake
    refine ⟨d', ?_, hmade.placed h.folder _⟩
    simp only [hfolder, exportFolder, hmake, atPath]
  | false =>
    -- A file goes into the folder above it, which is made before.
    have hkey := placeOf_of_not_isMarker hmarker
    obtain ⟨ss, s, hlast⟩ := (List.eq_nil_or_concat _).resolve_left hclean.segments_ne_nil
    rw [List.concat_eq_append] at hlast
    have hpath := hclean.ofSegments_segments
    rw [hkey, hlast] at htakes hnames hfree ⊢
    rw [hlast] at hpath
    have hnone := hfree.file rfl
    rw [← List.append_assoc] at hnone
    obtain ⟨d', hmade, hnone', hexport⟩ := h.exportText_joinPath hd hnames htakes.refusal
      (fun above hpre hnil => hfree.folder above hnil (Tree.needs_file_iff.mpr hpre)) hnone
      f.content
    refine ⟨_, ?_, (hmade.placed h.folder _).put (hnames s (by simp)) hnone'⟩
    rw [hpath] at hexport
    simp only [markedFolder?_of_not_isMarker hmarker, hexport]

/-! ## All files -/

/-- In a folder that was empty, the places of some files were put, and everything outside is
    as it was. -/
structure Exported (d : Disk) (place : Place) (files : List File) (d' : Disk) : Prop where
  isTree : IsTree d'.entries
  here : d'.here = d.here
  folder : ∀ s, s ≠ [] → (d'.get? (place ++ s) = some .folder ↔
    Tree.Needed (files.map fun f => Tree.placeOf f.path) s .folder)
  file : ∀ s bytes, s ≠ [] → (d'.get? (place ++ s) = some (.file bytes) ↔
    ∃ f ∈ files, Tree.placeOf f.path = ⟨.file, s⟩ ∧ f.content.toUTF8 = bytes)
  link : ∀ s target, s ≠ [] → d'.get? (place ++ s) ≠ some (.link target)
  kept : ∀ q, (∀ s, s ≠ [] → q ≠ place ++ s) → d'.get? q = d.get? q

theorem exported_nil (hd : IsTree d.entries) (hempty : d.below place = []) :
    Exported d place [] d := by
  have hnone := fun s hne => get?_of_below_eq_nil hempty (s := s) hne
  refine ⟨hd, rfl, ?_, ?_, ?_, fun q _ => rfl⟩
  · intro s hne
    simp [hnone s hne, Tree.Needed]
  · intro s bytes hne
    simp [hnone s hne]
  · intro s target hne
    simp [hnone s hne]

/-- Nothing was taken away. -/
theorem Exported.get?_eq_some (h : Exported d place files d') (hempty : d.below place = [])
    (q : Place) (entry : Entry) (hq : d.get? q = some entry) : d'.get? q = some entry := by
  rw [h.kept, hq]
  rintro s hne rfl
  rw [get?_of_below_eq_nil hempty hne] at hq
  cases hq

/-- Below the folder, a place gets what it needs, or is as it was. -/
theorem Placed.cases {p : Tree.Place} (h : Placed d place p bytes d') (s : Place) :
    (p.Needs s .folder ∧ d'.get? (place ++ s) = some .folder) ∨
      (p = ⟨.file, s⟩ ∧ d'.get? (place ++ s) = some (.file bytes)) ∨
      (¬ p.Needs s .folder ∧ p ≠ ⟨.file, s⟩ ∧ d'.get? (place ++ s) = d.get? (place ++ s)) := by
  by_cases hfolder : p.Needs s .folder
  · exact .inl ⟨hfolder, h.folder s hfolder⟩
  · by_cases hfile : p = ⟨.file, s⟩
    · subst hfile
      exact .inr (.inl ⟨rfl, h.file rfl⟩)
    · refine .inr (.inr ⟨hfolder, hfile, h.kept _ fun t kind _ hneeds heq => ?_⟩)
      obtain rfl := List.append_cancel_left heq
      cases kind with
      | folder => exact hfolder hneeds
      | file =>
        obtain ⟨hkind, rfl⟩ := hneeds
        exact hfile (by rw [← hkind])

/-- Below the folder there are the folders that were there and those that the place needs. -/
theorem Placed.folder_iff {p : Tree.Place} (h : Placed d place p bytes d')
    (hfree : IsFree d place p) {s : Place} : d'.get? (place ++ s) = some .folder ↔
      d.get? (place ++ s) = some .folder ∨ p.Needs s .folder := by
  constructor
  · intro hfolder
    rcases h.cases s with ⟨hneeds, -⟩ | ⟨-, hfile⟩ | ⟨-, -, hsame⟩
    · exact .inr hneeds
    · rw [hfile] at hfolder
      cases hfolder
    · exact .inl (hsame ▸ hfolder)
  · rintro (hold | hneeds)
    · exact h.get?_eq_some hfree _ _ hold
    · exact h.folder s hneeds

/-- There are the files that were there and the one that was put. -/
theorem Placed.file_iff {p : Tree.Place} (h : Placed d place p bytes d')
    (hfree : IsFree d place p) {s : Place} {other : ByteArray} :
    d'.get? (place ++ s) = some (.file other) ↔
      d.get? (place ++ s) = some (.file other) ∨ p = ⟨.file, s⟩ ∧ bytes = other := by
  constructor
  · intro hother
    rcases h.cases s with ⟨-, hfolder⟩ | ⟨hplace, hfile⟩ | ⟨-, -, hsame⟩
    · rw [hfolder] at hother
      cases hother
    · rw [hfile] at hother
      cases hother
      exact .inr ⟨hplace, rfl⟩
    · exact .inl (hsame ▸ hother)
  · rintro (hold | ⟨rfl, rfl⟩)
    · exact h.get?_eq_some hfree _ _ hold
    · exact h.file rfl

/-- There are no links but those that were there. -/
theorem Placed.link_of_link {p : Tree.Place} (h : Placed d place p bytes d') {s : Place}
    {target : String} (hlink : d'.get? (place ++ s) = some (.link target)) :
    d.get? (place ++ s) = some (.link target) := by
  rcases h.cases s with ⟨-, hfolder⟩ | ⟨-, hfile⟩ | ⟨-, -, hsame⟩
  · rw [hfolder] at hlink
    cases hlink
  · rw [hfile] at hlink
    cases hlink
  · exact hsame ▸ hlink

theorem needed_append {s : Place} {kind : Tree.Kind} :
    Tree.Needed ((files ++ [f]).map fun f => Tree.placeOf f.path) s kind ↔
      Tree.Needed (files.map fun f => Tree.placeOf f.path) s kind ∨
        (Tree.placeOf f.path).Needs s kind := by
  simp [Tree.Needed, or_and_right, exists_or]

/-- What is put for one more file stands with the others. -/
theorem Exported.append (h : Exported d₀ place files d)
    (hfree : IsFree d place (Tree.placeOf f.path))
    (hplaced : Placed d place (Tree.placeOf f.path) f.content.toUTF8 d') :
    Exported d₀ place (files ++ [f]) d' := by
  refine ⟨hplaced.isTree, hplaced.here.trans h.here, ?_, ?_, ?_, ?_⟩
  · intro s hne
    rw [hplaced.folder_iff hfree, h.folder s hne, needed_append]
  · intro s bytes hne
    rw [hplaced.file_iff hfree, h.file s bytes hne]
    simp [or_and_right, exists_or]
  · intro s target hne hlink
    exact h.link s target hne (hplaced.link_of_link hlink)
  · intro q hq
    rw [hplaced.kept q fun s _ hne _ => hq s hne, h.kept q hq]

/-- Where the next file needs a folder, no file was put. -/
theorem Exported.none_or_folder (h : Exported d₀ place files d)
    (hkeys : CleanKeys ((files ++ [f]).map File.path)) {s : Place} (hne : s ≠ [])
    (hneeds : (Tree.placeOf f.path).Needs s .folder) :
    d.get? (place ++ s) = none ∨ d.get? (place ++ s) = some .folder := by
  have hconsistent := hkeys.consistent
  rw [List.map_map] at hconsistent
  cases hthere : d.get? (place ++ s) with
  | none => exact .inl rfl
  | some entry =>
    cases entry with
    | folder => exact .inr rfl
    | file bytes =>
      obtain ⟨g, hg, hplace, -⟩ := (h.file s bytes hne).mp hthere
      refine absurd (needed_append.mpr (.inr hneeds)) (hconsistent s hne ?_)
      exact needed_append.mpr (.inl ⟨_, List.mem_map_of_mem hg, by rw [hplace]; exact ⟨rfl, rfl⟩⟩)
    | link target => exact absurd hthere (h.link s target hne)

/-- Where the next file goes, there is nothing: a folder is needed by no other key there, and a
    file there has the same key. -/
theorem Exported.none_of_file (h : Exported d₀ place files d)
    (hkeys : CleanKeys ((files ++ [f]).map File.path))
    (hnodup : ((files ++ [f]).map File.path).Nodup) (hkind : (Tree.placeOf f.path).kind = .file) :
    d.get? (place ++ (Tree.placeOf f.path).segments) = none := by
  have hconsistent := hkeys.consistent
  rw [List.map_map] at hconsistent
  have hclean : ∀ g ∈ files ++ [f], IsClean g.path := fun g hg =>
    hkeys.clean _ (List.mem_map_of_mem hg)
  have hne := (hclean f (by simp)).placeOf_ne_nil
  cases hthere : d.get? (place ++ (Tree.placeOf f.path).segments) with
  | none => rfl
  | some entry =>
    exfalso
    cases entry with
    | folder =>
      have hold := (h.folder _ hne).mp hthere
      exact hconsistent _ hne (needed_append.mpr (.inr ⟨hkind, rfl⟩))
        (needed_append.mpr (.inl hold))
    | file bytes =>
      obtain ⟨g, hg, hplace, -⟩ := (h.file _ bytes hne).mp hthere
      have hsame : g.path = f.path := by
        refine (hclean g (by simp [hg])).eq_of_placeOf (hclean f (by simp)) ?_
        rw [hplace, ← hkind]
      rw [List.map_append, List.nodup_append] at hnodup
      exact hnodup.2.2 _ (List.mem_map_of_mem hg) f.path (by simp) hsame
    | link target => exact h.link _ target hne hthere

/-- Among files with different clean keys, the next one is free to be put. -/
theorem Exported.isFree (h : Exported d₀ place files d)
    (hkeys : CleanKeys ((files ++ [f]).map File.path))
    (hnodup : ((files ++ [f]).map File.path).Nodup) : IsFree d place (Tree.placeOf f.path) :=
  ⟨fun _ hne hneeds => h.none_or_folder hkeys hne hneeds, h.none_of_file hkeys hnodup⟩

/-- The files of clean keys are all put, one after the other. -/
theorem Opens.exportFiles (h : Opens d₀ root place m) (hempty : d₀.below place = [])
    (hdone : Exported d₀ place files d) (hkeys : CleanKeys ((files ++ rest).map File.path))
    (hnodup : ((files ++ rest).map File.path).Nodup)
    (htakes : ∀ f ∈ rest, Takes root (Tree.placeOf f.path).segments) :
    ∃ d', exportFiles root d rest = (.ok (), d') ∧ Exported d₀ place (files ++ rest) d' := by
  induction rest generalizing files d with
  | nil => exact ⟨d, rfl, by rwa [List.append_nil]⟩
  | cons f rest ih =>
    rw [List.append_cons] at hkeys hnodup ⊢
    have hopens : Opens d root place m :=
      h.mono hdone.here (hdone.get?_eq_some hempty)
    have hfirst : (files ++ [f]).map File.path ⊆ (files ++ [f] ++ rest).map File.path :=
      List.map_subset _ (List.subset_append_left _ rest)
    have hfree := hdone.isFree (hkeys.mono hfirst)
      (hnodup.sublist ((List.sublist_append_left _ rest).map _))
    obtain ⟨d', hexport, hplaced⟩ := hopens.exportFile hdone.isTree
      (hkeys.clean _ (hfirst (by simp))) (htakes f List.mem_cons_self) hfree
    obtain ⟨d'', hrest, hall⟩ := ih (hdone.append hfree hplaced) hkeys hnodup
      fun g hg => htakes g (List.mem_cons_of_mem f hg)
    refine ⟨d'', ?_, hall⟩
    rw [Disk.exportFiles, hexport]
    exact hrest

/-- Into an empty folder, all files of clean keys are put. -/
theorem Opens.exists_exported (h : Opens d root place m) (hd : IsTree d.entries)
    (hempty : d.below place = []) (hkeys : CleanKeys (files.map File.path))
    (hnodup : (files.map File.path).Nodup)
    (htakes : ∀ f ∈ files, Takes root (Tree.placeOf f.path).segments) :
    ∃ d', Disk.exportFiles root d files = (.ok (), d') ∧ Exported d place files d' :=
  h.exportFiles hempty (exported_nil hd hempty) hkeys hnodup htakes

/-! ## What lies there -/

/-- What is found in the exported folder is needed for one of the files. -/
theorem Exported.exists_file (h : Exported d place files d') {e : Place × Entry}
    (hmem : e ∈ d'.below place) :
    ∃ f ∈ files, (e.2 = .folder ∧ (Tree.placeOf f.path).Needs e.1 .folder) ∨
      (e.2 = .file f.content.toUTF8 ∧ Tree.placeOf f.path = ⟨.file, e.1⟩) := by
  obtain ⟨s, entry⟩ := e
  obtain ⟨hne, hthere⟩ := h.isTree.mem_below_iff.mp hmem
  cases entry with
  | folder =>
    obtain ⟨p, hp, hneeds⟩ := (h.folder s hne).mp hthere
    obtain ⟨f, hf, rfl⟩ := List.mem_map.mp hp
    exact ⟨f, hf, .inl ⟨rfl, hneeds⟩⟩
  | file bytes =>
    obtain ⟨f, hf, hplace, rfl⟩ := (h.file s bytes hne).mp hthere
    exact ⟨f, hf, .inr ⟨rfl, hplace⟩⟩
  | link target => exact absurd hthere (h.link s target hne)

/-- What lies in the folder lies on the way to the place of a file. -/
theorem Exported.exists_isPrefix (h : Exported d place files d') {e : Place × Entry}
    (hmem : e ∈ d'.below place) : ∃ f ∈ files, e.1 <+: (Tree.placeOf f.path).segments := by
  obtain ⟨f, hf, ⟨-, hneeds⟩ | ⟨-, hplace⟩⟩ := h.exists_file hmem
  · exact ⟨f, hf, hneeds.isPrefix⟩
  · exact ⟨f, hf, by rw [hplace]⟩

theorem Exported.folder_mem (h : Exported d place files d') {s : Place} (hf : f ∈ files)
    (hne : s ≠ []) (hneeds : (Tree.placeOf f.path).Needs s .folder) :
    (s, .folder) ∈ d'.below place :=
  h.isTree.mem_below_iff.mpr ⟨hne, (h.folder s hne).mpr ⟨_, List.mem_map_of_mem hf, hneeds⟩⟩

theorem Exported.file_mem (h : Exported d place files d') {s : Place} (hf : f ∈ files)
    (hne : s ≠ []) (hplace : Tree.placeOf f.path = ⟨.file, s⟩) :
    (s, .file f.content.toUTF8) ∈ d'.below place :=
  h.isTree.mem_below_iff.mpr ⟨hne, (h.file s _ hne).mpr ⟨f, hf, hplace, rfl⟩⟩

end Disk

end LivePreview
