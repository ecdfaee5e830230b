/-
  LivePreview.Proofs.FolderNames

  When deleting a folder takes back the making of it.

  A folder is made under its name, which leaves out the white space around a path and the
  slashes at its end; it is deleted under the path as it is written, and one slash is added
  where there is none.  So the marker of the folder lies within the path that it was made
  from exactly if that path spells the name of the folder, with one slash at its end or with
  none (`Path.isWithin_marker_folderName_iff`).  A deletion under these two spellings leads
  back to the project as it was before, the others leave the marker.
-/

import LivePreview.Proofs.Deleting

namespace LivePreview

open Project (folderName)

namespace Path

variable {folder path : String}

/-! ## Names of folders -/

/-- A path is the name of its folder, with white space before it and slashes and white space
    behind it. -/
theorem exists_folderName (path : String) :
    ∃ lead tail, path.toList = lead ++ ((folderName path).toList ++ tail) ∧
      (∀ c ∈ lead, Text.isBlank c = true) ∧ ∀ c ∈ tail, c = '/' ∨ Text.isBlank c = true := by
  obtain ⟨lead, blanks, hpath, hlead, hblanks⟩ := Text.exists_trim path.toList
  obtain ⟨slashes, htrim, hslashes⟩ := exists_trimEndSlashes (Text.trim path.toList)
  refine ⟨lead, slashes ++ blanks, ?_, hlead, ?_⟩
  · rw [folderName, String.toList_ofList, ← List.append_assoc (trimEndSlashes _), ← htrim, ← hpath]
  · intro c hc
    exact (List.mem_append.mp hc).imp (hslashes c) (hblanks c)

theorem isBlank_of_head?_folderName {c : Char} (h : (folderName path).toList.head? = some c) :
    Text.isBlank c = false := by
  obtain ⟨slashes, hslashes⟩ := trimEndSlashes_isPrefix (Text.trim path.toList)
  rw [folderName, String.toList_ofList] at h
  have hhead : (Text.trim path.toList).head? = some c := by
    rw [← hslashes, List.head?_append, h, Option.some_or]
  exact Text.isBlank_of_head?_trim hhead

theorem getLast?_folderName (path : String) : (folderName path).toList.getLast? ≠ some '/' := by
  rw [folderName, String.toList_ofList]
  exact getLast?_trimEndSlashes _

/-- The path is the folder, with one slash at its end or with none. -/
def Spells (path folder : String) : Prop := path = folder ∨ path = folder ++ "/"

instance (path folder : String) : Decidable (Spells path folder) :=
  inferInstanceAs (Decidable (_ ∨ _))

theorem Spells.folderPrefix_eq (h : Spells path folder)
    (hfolder : folder.toList.getLast? ≠ some '/') : folderPrefix path = folder ++ "/" := by
  rcases h with rfl | rfl
  · exact if_neg (by simpa using hfolder)
  · exact if_pos (by simp)

/-- Both spellings hold the same paths. -/
theorem Spells.isWithin_eq (h : Spells path folder) (hfolder : folder.toList.getLast? ≠ some '/')
    (key : String) : isWithin path key = isWithin folder key := by
  have hself : Spells folder folder := .inl rfl
  simp only [isWithin, h.folderPrefix_eq hfolder, hself.folderPrefix_eq hfolder]

/-! ## Paths that hold a marker -/

/-- Slashes and white space can begin what a marker adds to its folder with one slash only. -/
theorem eq_slash_of_isPrefix {tail : List Char} (hne : tail ≠ [])
    (hmarker : tail <+: ("/" ++ markerName).toList)
    (htail : ∀ c ∈ tail, c = '/' ∨ Text.isBlank c = true) : tail = ['/'] := by
  have hname : ("/" ++ markerName).toList = '/' :: '.' :: "folder".toList := by decide
  have hdot : ¬('.' = '/' ∨ Text.isBlank '.' = true) := by decide
  rw [hname] at hmarker
  match tail, hmarker with
  | [c], hmarker => rw [(List.cons_prefix_cons.mp hmarker).1]
  | c :: d :: rest, hmarker =>
    have hd : d = '.' := (List.cons_prefix_cons.mp (List.cons_prefix_cons.mp hmarker).2).1
    exact absurd (htail d (by simp)) (hd ▸ hdot)

theorem toList_marker (folder : String) :
    (marker folder).toList = folder.toList ++ ("/" ++ markerName).toList := by
  simp [marker]

theorem isWithin_marker_self (hfolder : folder.toList.getLast? ≠ some '/') :
    isWithin folder (marker folder) = true := by
  have hself : Spells folder folder := .inl rfl
  rw [isWithin_iff, hself.folderPrefix_eq hfolder, toList_marker]
  simp

/-- A path that begins with white space is not the beginning of the marker it names. -/
theorem lead_eq_nil {lead rest : List Char} (hne : folderName path ≠ "")
    (hpath : path.toList = lead ++ rest) (hlead : ∀ c ∈ lead, Text.isBlank c = true)
    (h : path.toList <+: (marker (folderName path)).toList) : lead = [] := by
  cases lead with
  | nil => rfl
  | cons c lead =>
    have hname : (folderName path).toList ≠ [] := by simpa using hne
    obtain ⟨d, name, hcons⟩ := List.exists_cons_of_ne_nil hname
    rw [hpath, toList_marker, hcons, List.cons_append, List.cons_append,
      List.cons_prefix_cons] at h
    have hhead : (folderName path).toList.head? = some d := by rw [hcons, List.head?_cons]
    have hblank := isBlank_of_head?_folderName hhead
    rw [← h.1, hlead c List.mem_cons_self] at hblank
    cases hblank

theorem toList_isPrefix_folderPrefix (path : String) :
    path.toList <+: (folderPrefix path).toList := by
  unfold folderPrefix
  split
  · exact List.prefix_rfl
  · simp

/-- Where its marker lies within the path that names it, a folder is spelled by the path:
    nothing can stand before the name, and what stands behind it is at most one slash. -/
theorem spells_of_isWithin_marker (hne : folderName path ≠ "")
    (h : isWithin path (marker (folderName path)) = true) : Spells path (folderName path) := by
  rw [isWithin_iff] at h
  obtain ⟨lead, tail, hpath, hlead, htail⟩ := exists_folderName path
  obtain rfl : lead = [] :=
    lead_eq_nil hne hpath hlead ((toList_isPrefix_folderPrefix path).trans h)
  rw [List.nil_append] at hpath
  unfold folderPrefix at h
  split at h
  · next hslash =>
    -- The path ends in a slash, which is no part of the name.
    have htailne : tail ≠ [] := by
      rintro rfl
      rw [List.append_nil] at hpath
      exact getLast?_folderName path (by simpa [← hpath] using hslash)
    rw [hpath, toList_marker, List.prefix_append_right_inj] at h
    right
    rw [← String.toList_inj, hpath, eq_slash_of_isPrefix htailne h htail]
    simp
  · -- A slash is added behind the path, so nothing is left for the path itself.
    rw [String.toList_append, hpath, toList_marker, List.append_assoc,
      List.prefix_append_right_inj] at h
    have hsingle : tail ++ "/".toList = ['/'] := by
      refine eq_slash_of_isPrefix (by simp) h fun c hc => ?_
      exact (List.mem_append.mp hc).elim (htail c) fun hc => .inl (by simpa using hc)
    have hnil : tail = [] := by simpa using hsingle
    left
    rw [← String.toList_inj, hpath, hnil, List.append_nil]

/-- The marker of a folder lies within the path that names the folder exactly if the path
    spells the name. -/
theorem isWithin_marker_folderName_iff (hne : folderName path ≠ "") :
    isWithin path (marker (folderName path)) = true ↔ Spells path (folderName path) := by
  refine ⟨spells_of_isWithin_marker hne, fun h => ?_⟩
  rw [h.isWithin_eq (getLast?_folderName path)]
  exact isWithin_marker_self (getLast?_folderName path)

end Path

namespace Project

variable {p q : Project} {path : String}

/-! ## Making and deleting -/

theorem createFolder?_spec (h : p.createFolder? path = some q) :
    folderName path ≠ "" ∧ Path.marker (folderName path) ∉ p.paths ∧
      q.files.entries =
        p.files.entries ++ [(Path.marker (folderName path), ⟨Path.marker (folderName path), ""⟩)] ∧
      q.activePath = p.activePath ∧ q.entryDocument = p.entryDocument := by
  obtain rfl := createFolder?_eq_some h
  simp only [createFolder?] at h
  split at h
  · cases h
  · next hfree =>
    simp only [Bool.or_eq_true, not_or, String.isEmpty_iff] at hfree
    have hnew : Path.marker (folderName path) ∉ p.paths :=
      fun hmem => hfree.2 (Table.contains_iff_mem_keys.mpr hmem)
    exact ⟨hfree.1, hnew, Table.entries_put_of_not_mem hnew _, rfl, rfl⟩

/-- What is made and deleted under a spelling of the name of a folder leaves no trace. -/
theorem deleteFolder_of_spells {name : String} (h : p.createFolder? path = some q)
    (hname : Path.Spells name (folderName path))
    (hfree : ∀ k ∈ p.paths, Path.isWithin (folderName path) k = false) (hp : p.HasSelection) :
    q.deleteFolder name = (p, 1) := by
  obtain ⟨hne, -, hentries, hactive, hentry⟩ := createFolder?_spec h
  have hwithin : ∀ k, Path.isWithin name k = Path.isWithin (folderName path) k :=
    hname.isWithin_eq (Path.getLast?_folderName path)
  have hmarker : Path.isWithin name (Path.marker (folderName path)) = true := by
    rw [hwithin, Path.isWithin_marker_self (Path.getLast?_folderName path)]
  -- The marker is the only key in the folder, and it is not selected.
  have hkept : ∀ e ∈ p.files.entries, Path.isWithin name e.1 = false := by
    intro e he
    rw [hwithin, hfree e.1 (List.mem_map_of_mem he)]
  have hselected : Path.isWithin name q.activePath = false := by
    rw [hactive, hwithin]
    exact hp.elim (fun hempty => hempty ▸ Path.isWithin_empty _) (hfree _)
  refine Prod.ext ?_ ?_
  · rw [deleteFolder_of_not_isWithin hselected]
    refine eq_of_parts (Table.ext ?_) hactive hentry
    change (q.files.entries.filter fun e => !Path.isWithin name e.1) = p.files.entries
    rw [hentries, List.filter_append, List.filter_eq_self.mpr fun e he => by simp [hkept e he]]
    simp [hmarker]
  · have hnone : p.paths.filter (Path.isWithin name) = [] :=
      List.filter_eq_nil_iff.mpr fun k hk => by simp [hwithin, hfree k hk]
    have hpaths : q.paths = p.paths ++ [Path.marker (folderName path)] := by
      simp [paths, Table.keys, hentries]
    simp [count_deleteFolder, hpaths, hnone, hmarker]

/-- Where a folder is made from a path, its marker is a new key.  Deleting the folder under
    that path takes the marker away exactly if the path spells the name of the folder: no
    white space around it, and at most one slash at its end.  Deleting it under either
    spelling of the name takes the marker away, and if no key was in the folder and the
    selection was empty or a key, it leads back to the project as it was, with one removed
    key. -/
theorem deleteFolder_of_createFolder (h : p.createFolder? path = some q) :
    let marker := Path.marker (folderName path)
    (marker ∉ p.paths ∧ marker ∈ q.paths) ∧
      (marker ∉ (q.deleteFolder path).1.paths ↔ Path.Spells path (folderName path)) ∧
      ∀ name, Path.Spells name (folderName path) →
        marker ∉ (q.deleteFolder name).1.paths ∧
          ((∀ k ∈ p.paths, Path.isWithin (folderName path) k = false) → p.HasSelection →
            q.deleteFolder name = (p, 1)) := by
  intro marker
  obtain ⟨hne, hnew, hentries, -, -⟩ := createFolder?_spec h
  have hmem : marker ∈ q.paths := by simp [paths, Table.keys, hentries, marker]
  have hgone : ∀ name, marker ∉ (q.deleteFolder name).1.paths ↔
      Path.isWithin name marker = true := by
    intro name
    have hkey : marker ∈ q.files.keys := hmem
    rw [paths, files_deleteFolder, Table.keys_retain, List.mem_filter]
    simp [hkey]
  refine ⟨⟨hnew, hmem⟩, ?_, fun name hname => ⟨?_, deleteFolder_of_spells h hname⟩⟩
  · rw [hgone, Path.isWithin_marker_folderName_iff hne]
  · rw [hgone, hname.isWithin_eq (Path.getLast?_folderName path)]
    exact Path.isWithin_marker_self (Path.getLast?_folderName path)

/-- A folder that is made from a path with white space and two slashes stays when it is
    deleted under that path, and goes under its name. -/
theorem deleteFolder_of_createFolder_spelled :
    let p := ofFiles [("a.js", "1")]
    let q := ofFiles [("a.js", "1"), ("src/.folder", "")]
    p.createFolder? " src// " = some q ∧ "src/.folder" ∈ (q.deleteFolder " src// ").1.paths ∧
      q.deleteFolder "src" = (p, 1) ∧ q.deleteFolder "src/" = (p, 1) := by
  intro p q
  have hcreate : p.createFolder? " src// " = some q := by decide
  have hname : folderName " src// " = "src" := by decide
  obtain ⟨-, hstays, hback⟩ := deleteFolder_of_createFolder hcreate
  rw [hname] at hstays hback
  have hfree : ∀ k ∈ p.paths, Path.isWithin "src" k = false := by decide
  have hp : p.HasSelection := .inr (by decide)
  refine ⟨hcreate, ?_, (hback "src" (.inl rfl)).2 hfree hp, (hback "src/" (.inr rfl)).2 hfree hp⟩
  have hnot : ¬Path.Spells " src// " "src" := by decide
  exact not_not.mp (mt hstays.mp hnot)

/-- With two slashes at the end of its path a folder is made, and deleting it under the same
    path removes nothing; so it is with white space around the path. -/
theorem exists_unremoved_marker :
    let q := ofFiles [("src/.folder", "")]
    empty.HasSelection ∧
      (empty.createFolder? "src//" = some q ∧ q.deleteFolder "src//" = (q, 0)) ∧
      empty.createFolder? " src " = some q ∧ q.deleteFolder " src " = (q, 0) := by
  intro q
  exact ⟨.inl rfl, ⟨by decide, by decide⟩, by decide, by decide⟩

end Project

end LivePreview
