/-
  LivePreview.Proofs.CleanKeys

  Keys that are names one behind the other, and lists of them without a file in the way.

  Of clean keys, the place, the marked folder and the keys within a folder are read off
  their segments (`IsClean.exists_marker`, `isWithin_ofSegments`).  If no key lies within
  another one that marks no folder, all of them can stand in one folder
  (`CleanKeys.consistent`).
-/

import LivePreview.Disk.Export
import LivePreview.Proofs.FolderView
import LivePreview.Proofs.JoinedPath

namespace LivePreview

namespace Path

/-- Segments that lead down, with a slash between each two, and not a marker outside of all
    folders. -/
structure IsClean (key : String) : Prop where
  exists_segments : ∃ ss, ss ≠ [] ∧ (∀ s ∈ ss, IsStep s) ∧ key = ofSegments ss
  ne_marker : key ≠ markerName

/-- Clean keys, none of them within one that marks no folder. -/
structure CleanKeys (keys : List String) : Prop where
  clean : ∀ key ∈ keys, IsClean key
  free : ∀ file ∈ keys, isMarker file = false → ∀ key ∈ keys, isWithin file key = false

variable {key s : String} {ss ts : List String}

/-! ## Segments -/

theorem IsClean.isStep (h : IsClean key) : ∀ s ∈ segments key, IsStep s := by
  obtain ⟨ss, -, hss, rfl⟩ := h.exists_segments
  rwa [segments_ofSegments fun s hs => (hss s hs).isSegment]

theorem IsClean.segments_ne_nil (h : IsClean key) : segments key ≠ [] := by
  obtain ⟨ss, hne, hss, rfl⟩ := h.exists_segments
  rwa [segments_ofSegments fun s hs => (hss s hs).isSegment]

theorem IsClean.ofSegments_segments (h : IsClean key) : ofSegments (segments key) = key := by
  obtain ⟨ss, -, hss, rfl⟩ := h.exists_segments
  rw [segments_ofSegments fun s hs => (hss s hs).isSegment]

theorem folderPrefix_ofSegments (h : ∀ s ∈ ss, IsStep s) :
    (folderPrefix (ofSegments ss)).toList = (ofSegments ss).toList ++ ['/'] := by
  have hend := Disk.endsInSlash_ofSegments h
  rw [Disk.endsInSlash] at hend
  rw [folderPrefix, hend]
  simp

theorem isClean_iff : IsClean key ↔
    (ofSegments (segments key) = key ∧ segments key ≠ [] ∧ ∀ s ∈ segments key, IsStep s) ∧
      key ≠ markerName :=
  ⟨fun h => ⟨⟨h.ofSegments_segments, h.segments_ne_nil, h.isStep⟩, h.ne_marker⟩,
    fun h => ⟨⟨_, h.1.2.1, h.1.2.2, h.1.1.symm⟩, h.2⟩⟩

instance (key : String) : Decidable (IsClean key) := decidable_of_iff _ isClean_iff.symm

instance (keys : List String) : Decidable (CleanKeys keys) :=
  decidable_of_iff ((∀ key ∈ keys, IsClean key) ∧
    ∀ file ∈ keys, isMarker file = false → ∀ key ∈ keys, isWithin file key = false)
    ⟨fun h => ⟨h.1, h.2⟩, fun h => ⟨h.clean, h.free⟩⟩

theorem splitOn_ofSegments (h : ∀ s ∈ ss, IsStep s) (hne : ss ≠ []) :
    (ofSegments ss).toList.splitOn '/' = ss.map String.toList := by
  rw [toList_ofSegments]
  refine List.splitOn_intercalate '/' (fun cs hcs => ?_) (by simpa using hne)
  obtain ⟨s, hs, rfl⟩ := List.mem_map.mp hcs
  exact (h s hs).isSegment.2

/-- A key lies within a folder if its segments go on behind those of the folder. -/
theorem isWithin_ofSegments (hss : ∀ s ∈ ss, IsStep s) (hts : ∀ t ∈ ts, IsStep t)
    (hne : ss ≠ []) :
    isWithin (ofSegments ss) (ofSegments ts) = true ↔ ss <+: ts ∧ ss ≠ ts := by
  rw [isWithin_iff, folderPrefix_ofSegments hss]
  constructor
  · rintro ⟨rest, hrest⟩
    have hts' : ts ≠ [] := by
      rintro rfl
      simp [ofSegments] at hrest
    -- Cut at its slashes, the key falls into its segments, those of the folder first.
    have hsplit := splitOn_ofSegments hts hts'
    rw [← hrest, List.append_assoc, List.singleton_append, List.splitOn_append_cons_self,
      splitOn_ofSegments hss hne] at hsplit
    have hmap := congrArg (List.map String.ofList) hsplit
    simp only [List.map_append, List.map_map, Function.comp_def, String.ofList_toList,
      List.map_id'] at hmap
    refine ⟨⟨_, hmap⟩, fun heq => ?_⟩
    simp [heq, List.splitOn_ne_nil] at hmap
  · rintro ⟨⟨rest, rfl⟩, hdiff⟩
    have hrest : rest ≠ [] := by
      rintro rfl
      exact hdiff (List.append_nil ss).symm
    rw [Disk.toList_ofSegments_append hne hrest]
    exact ⟨_, by rw [List.append_assoc]; rfl⟩

/-! ## Markers -/

theorem segments_markerName : segments markerName = [markerName] := by decide

theorem splitLast_ofSegments (hne : ss ≠ []) (hs : IsSegment s) :
    Text.splitLast '/' (ofSegments (ss ++ [s])).toList =
      some ((ofSegments ss).toList, s.toList) := by
  rw [Disk.toList_ofSegments_concat hne, Text.splitLast_append hs.2]

theorem name_ofSegments (hs : IsSegment s) (ss : List String) :
    name (ofSegments (ss ++ [s])) = s := by
  by_cases hnil : ss = []
  · subst hnil
    rw [List.nil_append, ofSegments_singleton, name, Text.splitLast_eq_none_iff.mpr hs.2]
  · rw [name, splitLast_ofSegments hnil hs]
    simp

theorem trimEndSlashes_ofSegments (h : ∀ s ∈ ss, IsStep s) :
    trimEndSlashes (ofSegments ss).toList = (ofSegments ss).toList := by
  have hend := Disk.endsInSlash_ofSegments h
  rw [Disk.endsInSlash, beq_eq_false_iff_ne] at hend
  exact trimEndSlashes_eq_self hend

theorem markedFolder?_ofSegments (hne : ss ≠ []) (h : ∀ t ∈ ss ++ [markerName], IsStep t) :
    markedFolder? (ofSegments (ss ++ [markerName])) = some (ofSegments ss) := by
  obtain ⟨hss, hs⟩ := List.forall_mem_append.mp h
  have hname : IsSegment markerName := (hs _ List.mem_cons_self).isSegment
  have hmarker : isMarker (ofSegments (ss ++ [markerName])) = true := by
    rw [isMarker, name_ofSegments hname, beq_self_eq_true]
  have hparent : parent (ofSegments (ss ++ [markerName])) = ofSegments ss := by
    rw [parent, splitLast_ofSegments hne hname]
    simp
  rw [markedFolder?, if_pos hmarker, hparent, trimEndSlashes_ofSegments hss]
  split
  · next hempty => exact absurd hempty (Disk.toList_ofSegments_ne_nil hss hne)
  · rw [String.ofList_toList]

/-- A clean key has a last segment. -/
theorem IsClean.exists_concat (h : IsClean key) :
    ∃ ss s, (∀ t ∈ ss ++ [s], IsStep t) ∧ key = ofSegments (ss ++ [s]) := by
  obtain ⟨ts, hne, hts, rfl⟩ := h.exists_segments
  obtain ⟨ss, s, hlast⟩ := (List.eq_nil_or_concat ts).resolve_left hne
  rw [List.concat_eq_append] at hlast
  subst hlast
  exact ⟨ss, s, hts, rfl⟩

/-- A clean marker marks a folder by its segments. -/
theorem IsClean.exists_marker (h : IsClean key) (hmarker : isMarker key = true) :
    ∃ ss, ss ≠ [] ∧ segments key = ss ++ [markerName] ∧
      markedFolder? key = some (ofSegments ss) ∧ Tree.placeOf key = ⟨.folder, ss⟩ := by
  obtain ⟨ss, s, hts, rfl⟩ := h.exists_concat
  have hs : s = markerName := by
    rw [isMarker, name_ofSegments (hts s (by simp)).isSegment] at hmarker
    simpa using hmarker
  subst hs
  have hss : ss ≠ [] := by
    rintro rfl
    exact h.ne_marker (ofSegments_singleton markerName)
  have hsegments := segments_ofSegments fun s hs => (hts s hs).isSegment
  refine ⟨ss, hss, hsegments, markedFolder?_ofSegments hss hts, ?_⟩
  rw [Tree.placeOf, if_pos hmarker, hsegments, List.dropLast_concat]

theorem IsClean.isMarker_iff (h : IsClean key) :
    isMarker key = true ↔ (segments key).getLast? = some markerName := by
  obtain ⟨ss, s, hts, rfl⟩ := h.exists_concat
  rw [isMarker, name_ofSegments (hts s (by simp)).isSegment,
    segments_ofSegments fun s hs => (hts s hs).isSegment]
  simp

theorem placeOf_of_not_isMarker (h : isMarker key = false) :
    Tree.placeOf key = ⟨.file, segments key⟩ := by
  rw [Tree.placeOf, if_neg (by simp [h])]

theorem of_placeOf_eq_file (h : Tree.placeOf key = ⟨.file, ss⟩) :
    isMarker key = false ∧ segments key = ss := by
  unfold Tree.placeOf at h
  split at h
  · cases h
  · next hmarker => exact ⟨by simpa using hmarker, (Tree.Place.mk.inj h).2⟩

theorem IsClean.of_placeOf_eq_folder (h : IsClean key)
    (hplace : Tree.placeOf key = ⟨.folder, ss⟩) :
    segments key = ss ++ [markerName] ∧ markedFolder? key = some (ofSegments ss) := by
  cases hmarker : isMarker key with
  | true =>
    obtain ⟨ts, -, hsegments, hfolder, hplace'⟩ := h.exists_marker hmarker
    rw [hplace] at hplace'
    obtain rfl := (Tree.Place.mk.inj hplace').2
    exact ⟨hsegments, hfolder⟩
  | false =>
    rw [Tree.placeOf, if_neg (by simp [hmarker])] at hplace
    cases hplace

theorem isMarker_of_markedFolder? {folder : String} (h : markedFolder? key = some folder) :
    isMarker key = true := by
  unfold markedFolder? at h
  split at h
  · next hmarker => exact hmarker
  · cases h

theorem markedFolder?_of_not_isMarker (h : isMarker key = false) : markedFolder? key = none := by
  rw [markedFolder?, if_neg (by simp [h])]

/-- The place of a clean key is somewhere in the folder, not the folder itself. -/
theorem IsClean.placeOf_ne_nil (h : IsClean key) : (Tree.placeOf key).segments ≠ [] := by
  cases hmarker : isMarker key with
  | false =>
    rw [placeOf_of_not_isMarker hmarker]
    exact h.segments_ne_nil
  | true =>
    obtain ⟨ss, hne, -, -, hplace⟩ := h.exists_marker hmarker
    rwa [hplace]

theorem placeOf_segments_isPrefix (key : String) :
    (Tree.placeOf key).segments <+: segments key := by
  unfold Tree.placeOf
  split
  · exact List.dropLast_prefix _
  · exact List.prefix_refl _

/-- Two clean keys with one place are the same. -/
theorem IsClean.eq_of_placeOf {other : String} (h : IsClean key) (hother : IsClean other)
    (heq : Tree.placeOf key = Tree.placeOf other) : key = other := by
  rw [← h.ofSegments_segments, ← hother.ofSegments_segments]
  cases hmarker : isMarker key <;> cases hmarker' : isMarker other
  · rw [placeOf_of_not_isMarker hmarker, placeOf_of_not_isMarker hmarker'] at heq
    rw [(Tree.Place.mk.inj heq).2]
  · obtain ⟨_, -, -, -, hplace⟩ := hother.exists_marker hmarker'
    rw [placeOf_of_not_isMarker hmarker, hplace] at heq
    cases heq
  · obtain ⟨_, -, -, -, hplace⟩ := h.exists_marker hmarker
    rw [placeOf_of_not_isMarker hmarker', hplace] at heq
    cases heq
  · obtain ⟨ss, -, hsegments, -, hplace⟩ := h.exists_marker hmarker
    obtain ⟨ts, -, hsegments', -, hplace'⟩ := hother.exists_marker hmarker'
    rw [hplace, hplace'] at heq
    rw [hsegments, hsegments', (Tree.Place.mk.inj heq).2]

/-- A clean key nowhere leads out of the folder it is joined to. -/
theorem IsClean.isContained (h : IsClean key) : Disk.isContained key = true := by
  obtain ⟨ss, hne, hss, rfl⟩ := h.exists_segments
  have hup : ['.', '.'] ∉ ss.map String.toList := by
    intro hmem
    obtain ⟨s, hs, heq⟩ := List.mem_map.mp hmem
    exact (hss s hs).ne_up (String.toList_inj.mp heq)
  have hhere : (ss.map String.toList).head? ≠ some ['.'] := by
    intro hhead
    obtain ⟨s, hs, heq⟩ := List.mem_map.mp (List.mem_of_head? hhead)
    exact (hss s hs).ne_here (String.toList_inj.mp heq)
  unfold Disk.isContained
  rw [Disk.isAbsolute_ofSegments hss, splitOn_ofSegments hss hne]
  simpa [bne_iff_ne] using ⟨by simpa using hhere, by simpa using hup⟩

/-! ## Keys that can stand in one folder -/

/-- A clean key lies within the folders that are needed for it. -/
theorem IsClean.isWithin_iff (h : IsClean key) (hss : ∀ s ∈ ss, IsStep s) (hne : ss ≠ []) :
    isWithin (ofSegments ss) key = true ↔ (Tree.placeOf key).Needs ss .folder := by
  rw [← h.ofSegments_segments, isWithin_ofSegments hss h.isStep hne, h.ofSegments_segments]
  cases hmarker : isMarker key with
  | false =>
    rw [placeOf_of_not_isMarker hmarker]
    exact and_congr_right fun _ => ⟨fun hdiff heq => absurd heq.symm hdiff,
      fun hkind heq => nomatch hkind heq.symm⟩
  | true =>
    obtain ⟨ts, -, hsegments, -, hplace⟩ := h.exists_marker hmarker
    rw [hplace, hsegments, Tree.needs_folder_iff]
    constructor
    · rintro ⟨hpre, hdiff⟩
      exact (List.prefix_concat_iff.mp hpre).resolve_left hdiff
    · intro hpre
      refine ⟨hpre.trans (List.prefix_append ts [markerName]), ?_⟩
      rintro rfl
      exact absurd hpre.length_le (by simp)

theorem CleanKeys.mono {keys more : List String} (h : CleanKeys more) (hsub : keys ⊆ more) :
    CleanKeys keys :=
  ⟨fun key hkey => h.clean key (hsub hkey),
    fun file hfile hmarker key hkey => h.free file (hsub hfile) hmarker key (hsub hkey)⟩

/-- Clean keys ask for no file where a folder is needed. -/
theorem CleanKeys.consistent {keys : List String} (h : CleanKeys keys) :
    Tree.Consistent (keys.map Tree.placeOf) := by
  rintro ss hne ⟨p, hp, hfile⟩ ⟨q, hq, hfolder⟩
  obtain ⟨file, hmem, rfl⟩ := List.mem_map.mp hp
  obtain ⟨key, hmem', rfl⟩ := List.mem_map.mp hq
  have hclean := h.clean file hmem
  have hmarker : isMarker file = false := by
    by_contra hmarker
    obtain ⟨_, -, -, -, hplace⟩ := hclean.exists_marker (by simpa using hmarker)
    rw [hplace] at hfile
    cases hfile.1
  rw [placeOf_of_not_isMarker hmarker] at hfile
  obtain ⟨-, rfl⟩ := hfile
  have hwithin := ((h.clean key hmem').isWithin_iff hclean.isStep hne).mpr hfolder
  rw [hclean.ofSegments_segments, h.free file hmem hmarker key hmem'] at hwithin
  cases hwithin

end Path

end LivePreview
