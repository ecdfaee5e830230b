/-
  LivePreview.Proofs.FolderView

  The folder view of a list of paths.

  Paths are accepted one after the other (`Tree.accepted`): a path is dropped if it
  would need a file and a folder at one place, and then it leaves nothing behind.  The
  folder view is the ordered trie of the accepted paths (`ofPaths_eq_trie`), from which
  its shape and the nodes in it are read off.
-/

import LivePreview.Proofs.Trie
import Mathlib.Data.List.Induction

namespace LivePreview

namespace Tree

/-! ## Places of paths -/

/-- The place that a path asks for.  A marker stands for the folder it lies in.  Without
    segments nothing is asked for. -/
def placeOf (path : String) : Place :=
  if Path.isMarker path then ⟨.folder, (Path.segments path).dropLast⟩
  else ⟨.file, Path.segments path⟩

theorem isSegment_of_mem_placeOf {path s : String} (h : s ∈ (placeOf path).segments) :
    Path.IsSegment s := by
  have hmem : s ∈ Path.segments path := by
    unfold placeOf at h
    split at h
    · exact List.dropLast_subset _ h
    · exact h
  exact Path.isSegment_of_mem_segments hmem

/-- Adding a path adds its place. -/
theorem add_eq_insert (forest : List Node) (path : String) :
    add forest path = insert (placeOf path).kind "" (placeOf path).segments forest := by
  unfold add placeOf
  split
  · next h =>
    rw [Path.segments_of_isMarker h, List.dropLast_concat]
    cases Path.markedFolder? path <;> rfl
  · rfl

/-! ## Accepted places -/

/-- Accepts the place of a path, unless it asks for nothing or one of the places is in
    its way. -/
def accept (places : List Place) (path : String) : List Place :=
  if (placeOf path).segments = [] ∨ ∃ q ∈ places, q.Blocks (placeOf path) then places
  else places ++ [placeOf path]

/-- The places that are accepted when the paths are added in order. -/
def accepted (paths : List String) : List Place := paths.foldl accept []

theorem accepted_append_singleton (paths : List String) (path : String) :
    accepted (paths ++ [path]) = accept (accepted paths) path := by
  simp [accepted]

/-- Places that can stand together. -/
structure Fits (places : List Place) : Prop where
  proper : Proper places
  segments_ne_nil : ∀ p ∈ places, p.segments ≠ []
  consistent : Consistent places

theorem fits_nil : Fits [] :=
  ⟨by simp [Proper], by simp, by simp [Consistent, Needed]⟩

/-- Nothing is in the way of what is needed already. -/
theorem Fits.not_blocks {places : List Place} (h : Fits places) {p : Place}
    (hne : p.segments ≠ []) (hneeded : Needed places p.segments p.kind) :
    ∀ q ∈ places, ¬ q.Blocks p := by
  rintro q hq (⟨hkind, hpre, hdiff⟩ | hother)
  · -- A file on the way to the place would have to be a folder.
    obtain ⟨a, ha, hneeds⟩ := hneeded
    refine h.consistent q.segments (h.segments_ne_nil q hq) ⟨q, hq, hkind, rfl⟩
      ⟨a, ha, hpre.trans hneeds.isPrefix, fun heq => absurd ?_ hdiff⟩
    exact hpre.eq_of_length_le (heq ▸ hneeds.isPrefix.length_le)
  · cases hkind : p.kind with
    | file =>
      rw [hkind] at hneeded hother
      exact h.consistent p.segments hne hneeded ⟨q, hq, hother⟩
    | folder =>
      rw [hkind] at hneeded hother
      exact h.consistent p.segments hne ⟨q, hq, hother⟩ hneeded

/-- A place fits to others if none of them is in its way. -/
theorem Fits.append {places : List Place} (h : Fits places) {p : Place}
    (hproper : ∀ s ∈ p.segments, Path.IsSegment s) (hne : p.segments ≠ [])
    (hfree : ∀ q ∈ places, ¬ q.Blocks p) : Fits (places ++ [p]) := by
  refine ⟨?_, ?_, ?_⟩
  · exact List.forall_mem_append.mpr ⟨h.proper, List.forall_mem_singleton.mpr hproper⟩
  · exact List.forall_mem_append.mpr ⟨h.segments_ne_nil, List.forall_mem_singleton.mpr hne⟩
  · -- One of the two that cannot stand together would be the new place.
    rintro segments hsegments ⟨a, ha, hfile⟩ ⟨b, hb, hfolder⟩
    rw [List.mem_append, List.mem_singleton] at ha hb
    rcases ha with ha | rfl
    · rcases hb with hb | rfl
      · exact h.consistent segments hsegments ⟨a, ha, hfile⟩ ⟨b, hb, hfolder⟩
      · refine hfree a ha ?_
        by_cases heq : a.segments = b.segments
        · have hkind : b.kind = .folder := hfolder.2 (heq.symm.trans hfile.2)
          exact .inr (by rw [hkind]; exact ⟨hfile.1, heq⟩)
        · exact .inl ⟨hfile.1, hfile.2 ▸ hfolder.1, heq⟩
    · rcases hb with hb | rfl
      · refine hfree b hb (.inr ?_)
        rw [hfile.1, hfile.2]
        exact hfolder
      · have hkind := hfolder.2 hfile.2
        rw [hfile.1] at hkind
        cases hkind

theorem Fits.accept {places : List Place} (h : Fits places) (path : String) :
    Fits (accept places path) := by
  unfold Tree.accept
  split
  · exact h
  · next hfree =>
    rw [not_or, not_exists] at hfree
    exact h.append (fun s hs => isSegment_of_mem_placeOf hs) hfree.1
      fun q hq hblocks => hfree.2 q ⟨hq, hblocks⟩

theorem fits_accepted (paths : List String) : Fits (accepted paths) := by
  induction paths using List.reverseRecOn with
  | nil => exact fits_nil
  | append_singleton paths path ih =>
    rw [accepted_append_singleton]
    exact ih.accept path

/-! ## The view of the accepted places -/

/-- Adding a path to the trie of some places gives the trie of those accepted with it. -/
theorem add_trie {places : List Place} (h : Fits places) (path : String) :
    add (trie [] places) path = trie [] (accept places path) := by
  have hempty : "" ∉ (placeOf path).segments := fun hmem =>
    (isSegment_of_mem_placeOf hmem).1 rfl
  have hroot : ⟨.file, []⟩ ∉ places := fun hmem => h.segments_ne_nil _ hmem rfl
  rw [add_eq_insert, accept]
  split
  · next hdropped =>
    rcases hdropped with hnil | ⟨q, hq, hblocks⟩
    · rw [hnil, insert]
    · exact insert_of_blocks List.not_mem_nil hempty hroot hq hblocks
  · next hfree =>
    rw [not_or, not_exists] at hfree
    exact insert_trie List.not_mem_nil hempty hfree.1 fun q hq hblocks => hfree.2 q ⟨hq, hblocks⟩

theorem ofPaths_eq_trie (paths : List String) : ofPaths paths = trie [] (accepted paths) := by
  induction paths using List.reverseRecOn with
  | nil => exact (trie_nil []).symm
  | append_singleton paths path ih =>
    rw [ofPaths_append_singleton, ih, accepted_append_singleton, add_trie (fits_accepted paths)]

/-- A node of that kind stands at these segments. -/
def Stands (forest : List Node) (segments : List String) (kind : Kind) : Prop :=
  ∃ node ∈ nodes forest, kindOf node = kind ∧ node.path = Path.ofSegments segments

/-- There is no room for a place: the way to it leads through a file, or a node of the
    other kind is where it should be. -/
def Blocked (forest : List Node) (p : Place) : Prop :=
  (∃ segments, segments ≠ [] ∧ segments <+: p.segments ∧ segments ≠ p.segments ∧
      Stands forest segments .file) ∨
    Stands forest p.segments p.kind.other

section View

variable {places : List Place}

/-- In the trie of places that fit, what stands is what is needed. -/
theorem stands_trie_iff (h : Fits places) {segments : List String} {kind : Kind}
    (hne : segments ≠ []) (hsegments : ∀ s ∈ segments, Path.IsSegment s) :
    Stands (trie [] places) segments kind ↔ Needed places segments kind := by
  constructor
  · rintro ⟨node, hnode, rfl, hpath⟩
    obtain ⟨segments', -, hneeded, hpath', -⟩ := exists_needed_of_mem_nodes hnode
    have heq := Path.ofSegments_inj hsegments (h.proper.of_needed hneeded)
      (hpath.symm.trans hpath')
    exact heq ▸ hneeded
  · intro hneeded
    obtain ⟨node, hnode, hkind, -, hpath⟩ :=
      exists_node_of_needed [] h.consistent hne hneeded
    exact ⟨node, hnode, hkind, hpath⟩

/-- There is no room for a place exactly if one that was accepted is in its way. -/
theorem blocked_trie_iff (h : Fits places) {p : Place} (hne : p.segments ≠ [])
    (hp : ∀ s ∈ p.segments, Path.IsSegment s) :
    Blocked (trie [] places) p ↔ ∃ q ∈ places, q.Blocks p := by
  rw [Blocked, stands_trie_iff h hne hp]
  constructor
  · rintro (⟨segments, hnil, hpre, hdiff, hstands⟩ | ⟨q, hq, hneeds⟩)
    · rw [stands_trie_iff h hnil fun s hs => hp s (hpre.subset hs)] at hstands
      obtain ⟨q, hq, hkind, rfl⟩ := hstands
      exact ⟨q, hq, .inl ⟨hkind, hpre, hdiff⟩⟩
    · exact ⟨q, hq, .inr hneeds⟩
  · rintro ⟨q, hq, ⟨hkind, hpre, hdiff⟩ | hneeds⟩
    · refine .inl ⟨q.segments, h.segments_ne_nil q hq, hpre, hdiff, ?_⟩
      rw [stands_trie_iff h (h.segments_ne_nil q hq) fun s hs => hp s (hpre.subset hs)]
      exact ⟨q, hq, hkind, rfl⟩
    · exact .inr ⟨q, hq, hneeds⟩

end View

/-- The shape of a folder view. -/
structure WellFormed (forest : List Node) : Prop where
  /-- Siblings have different names. -/
  nodup_roots : (forest.map Node.name).Nodup
  nodup_children : ∀ node ∈ nodes forest, (node.children.map Node.name).Nodup
  /-- No two nodes have the same path. -/
  nodup_paths : ((nodes forest).map Node.path).Nodup
  /-- Paths go down by one name at a time. -/
  path_root : ∀ node ∈ forest, node.path = node.name
  path_child : ∀ node ∈ nodes forest, ∀ child ∈ node.children,
    child.path = node.path ++ "/" ++ child.name

theorem wellFormed_trie {places : List Place} (h : Proper places) :
    WellFormed (trie [] places) := by
  refine ⟨?_, ?_, nodup_paths_trie (by simp) h, ?_, ?_⟩
  · rw [map_name_trie]
    exact nodup_firsts places
  · intro node hnode
    obtain ⟨segments, -, -, -, places', hchildren⟩ := exists_needed_of_mem_nodes hnode
    rw [hchildren, map_name_trie]
    exact nodup_firsts places'
  · intro node hnode
    rw [path_of_mem_trie hnode]
    exact Path.ofSegments_singleton node.name
  · intro node hnode child hchild
    obtain ⟨segments, hlast, -, hpath, places', hchildren⟩ := exists_needed_of_mem_nodes hnode
    rw [hchildren] at hchild
    have hne : [] ++ segments ≠ [] := by
      rintro rfl
      cases hlast
    rw [path_of_mem_trie hchild, Path.ofSegments_append_singleton hne, hpath]

/-! ## What becomes of a path -/

/-- A path that asks for nothing, or for which there is no room, leaves the view as it is;
    any other is accepted. -/
theorem accepted_append_of_blocked {paths : List String} {path : String}
    (h : (placeOf path).segments = [] ∨ Blocked (ofPaths paths) (placeOf path)) :
    ofPaths (paths ++ [path]) = ofPaths paths ∧ accepted (paths ++ [path]) = accepted paths := by
  have hsame : accepted (paths ++ [path]) = accepted paths := by
    rw [accepted_append_singleton, accept, if_pos]
    by_cases hnil : (placeOf path).segments = []
    · exact .inl hnil
    · have hblocked := h.resolve_left hnil
      rw [ofPaths_eq_trie, blocked_trie_iff (fits_accepted paths) hnil
        fun s hs => isSegment_of_mem_placeOf hs] at hblocked
      exact .inr hblocked
  rw [ofPaths_eq_trie, ofPaths_eq_trie, hsame]
  exact ⟨rfl, rfl⟩

theorem accepted_append_of_not_blocked {paths : List String} {path : String}
    (hne : (placeOf path).segments ≠ []) (h : ¬ Blocked (ofPaths paths) (placeOf path)) :
    accepted (paths ++ [path]) = accepted paths ++ [placeOf path] := by
  rw [ofPaths_eq_trie, blocked_trie_iff (fits_accepted paths) hne
    fun s hs => isSegment_of_mem_placeOf hs] at h
  rw [accepted_append_singleton, accept, if_neg]
  rw [not_or]
  exact ⟨hne, h⟩

/-- What a path asks for stands in the view exactly if there was room for it. -/
theorem stands_append_iff {paths : List String} {path : String}
    (hne : (placeOf path).segments ≠ []) :
    Stands (ofPaths (paths ++ [path])) (placeOf path).segments (placeOf path).kind ↔
      ¬ Blocked (ofPaths paths) (placeOf path) := by
  have hsegments : ∀ s ∈ (placeOf path).segments, Path.IsSegment s :=
    fun s hs => isSegment_of_mem_placeOf hs
  constructor
  · intro hstands hblocked
    rw [(accepted_append_of_blocked (.inr hblocked)).1, ofPaths_eq_trie,
      stands_trie_iff (fits_accepted paths) hne hsegments] at hstands
    rw [ofPaths_eq_trie, blocked_trie_iff (fits_accepted paths) hne hsegments] at hblocked
    obtain ⟨q, hq, hblocks⟩ := hblocked
    exact (fits_accepted paths).not_blocks hne hstands q hq hblocks
  · intro hfree
    rw [ofPaths_eq_trie, stands_trie_iff (fits_accepted _) hne hsegments,
      accepted_append_of_not_blocked hne hfree]
    refine ⟨placeOf path, by simp, ?_⟩
    cases hkind : (placeOf path).kind with
    | file => exact ⟨hkind, rfl⟩
    | folder => exact ⟨List.prefix_refl _, fun _ => hkind⟩

/-! ## The nodes of the view -/

/-- Nodes with their kind, name and path are those that the accepted places need. -/
theorem exists_node_ofPaths_iff {paths : List String} {kind : Kind} {name path : String} :
    (∃ node ∈ nodes (ofPaths paths), kindOf node = kind ∧ node.name = name ∧ node.path = path) ↔
      ∃ segments, Needed (accepted paths) segments kind ∧ segments.getLast? = some name ∧
        path = Path.ofSegments segments := by
  rw [ofPaths_eq_trie]
  constructor
  · rintro ⟨node, hnode, rfl, rfl, rfl⟩
    obtain ⟨segments, hlast, hneeded, hpath, -⟩ := exists_needed_of_mem_nodes hnode
    exact ⟨segments, hneeded, hlast, hpath⟩
  · rintro ⟨segments, hneeded, hlast, rfl⟩
    have hne : segments ≠ [] := by
      rintro rfl
      cases hlast
    obtain ⟨node, hnode, hkind, hname, hpath⟩ :=
      exists_node_of_needed [] (fits_accepted paths).consistent hne hneeded
    exact ⟨node, hnode, hkind, Option.some.inj (hname.symm.trans hlast), hpath⟩

theorem file_mem_nodes_iff {paths : List String} {name path : String} :
    .file name path ∈ nodes (ofPaths paths) ↔
      ∃ segments, ⟨.file, segments⟩ ∈ accepted paths ∧ segments.getLast? = some name ∧
        path = Path.ofSegments segments := by
  have hnode : .file name path ∈ nodes (ofPaths paths) ↔
      ∃ node ∈ nodes (ofPaths paths),
        kindOf node = .file ∧ node.name = name ∧ node.path = path := by
    constructor
    · intro hmem
      exact ⟨_, hmem, rfl, rfl, rfl⟩
    · rintro ⟨node, hmem, hkind, rfl, rfl⟩
      cases node with
      | file name path => exact hmem
      | folder => cases hkind
  rw [hnode, exists_node_ofPaths_iff]
  constructor
  · rintro ⟨segments, ⟨⟨kind, segments'⟩, hp, hkind, hsegments⟩, hrest⟩
    cases hkind
    cases hsegments
    exact ⟨segments', hp, hrest⟩
  · rintro ⟨segments, hp, hrest⟩
    exact ⟨segments, ⟨_, hp, rfl, rfl⟩, hrest⟩

theorem folder_mem_nodes_iff {paths : List String} {name path : String} :
    (∃ children, .folder name path children ∈ nodes (ofPaths paths)) ↔
      ∃ segments, (⟨.folder, segments⟩ ∈ accepted paths ∨
          ∃ p ∈ accepted paths, segments <+: p.segments ∧ segments ≠ p.segments) ∧
        segments.getLast? = some name ∧ path = Path.ofSegments segments := by
  have hnode : (∃ children, .folder name path children ∈ nodes (ofPaths paths)) ↔
      ∃ node ∈ nodes (ofPaths paths),
        kindOf node = .folder ∧ node.name = name ∧ node.path = path := by
    constructor
    · rintro ⟨children, hmem⟩
      exact ⟨_, hmem, rfl, rfl, rfl⟩
    · rintro ⟨node, hmem, hkind, rfl, rfl⟩
      cases node with
      | file => cases hkind
      | folder name path children => exact ⟨children, hmem⟩
  -- A folder is asked for by its marker, or something below it is.
  have hneeded : ∀ segments, Needed (accepted paths) segments .folder ↔
      (⟨.folder, segments⟩ ∈ accepted paths ∨
        ∃ p ∈ accepted paths, segments <+: p.segments ∧ segments ≠ p.segments) := by
    intro segments
    constructor
    · rintro ⟨⟨kind, segments'⟩, hp, hpre, hkind⟩
      by_cases heq : segments' = segments
      · cases heq
        cases hkind rfl
        exact .inl hp
      · exact .inr ⟨_, hp, hpre, Ne.symm heq⟩
    · rintro (hp | ⟨p, hp, hpre, hdiff⟩)
      · exact ⟨_, hp, List.prefix_refl _, fun _ => rfl⟩
      · exact ⟨p, hp, hpre, fun heq => absurd heq.symm hdiff⟩
  rw [hnode, exists_node_ofPaths_iff]
  simp only [hneeded]

/-- The folder view of any paths.  It is the ordered trie of the accepted paths.  A path
    for which there is no room is dropped and leaves the view as it is; any other that
    asks for something is accepted, and what it asks for stands in the view.  The files
    in it are the accepted paths, the folders are those of accepted markers and those on
    the way to accepted paths, and the view is well formed. -/
theorem ofPaths_orderedTrie (paths : List String) :
    let forest := ofPaths paths
    forest = trie [] (accepted paths) ∧
    (∀ path, (placeOf path).segments = [] ∨ Blocked forest (placeOf path) →
      ofPaths (paths ++ [path]) = forest ∧ accepted (paths ++ [path]) = accepted paths) ∧
    (∀ path, (placeOf path).segments ≠ [] →
      (¬ Blocked forest (placeOf path) →
        accepted (paths ++ [path]) = accepted paths ++ [placeOf path]) ∧
      (Stands (ofPaths (paths ++ [path])) (placeOf path).segments (placeOf path).kind ↔
        ¬ Blocked forest (placeOf path))) ∧
    (∀ name path, .file name path ∈ nodes forest ↔
      ∃ segments, ⟨.file, segments⟩ ∈ accepted paths ∧ segments.getLast? = some name ∧
        path = Path.ofSegments segments) ∧
    (∀ name path, (∃ children, .folder name path children ∈ nodes forest) ↔
      ∃ segments, (⟨.folder, segments⟩ ∈ accepted paths ∨
          ∃ p ∈ accepted paths, segments <+: p.segments ∧ segments ≠ p.segments) ∧
        segments.getLast? = some name ∧ path = Path.ofSegments segments) ∧
    WellFormed forest := by
  intro forest
  have hforest : forest = trie [] (accepted paths) := ofPaths_eq_trie paths
  refine ⟨hforest, fun path h => accepted_append_of_blocked h, fun path hne => ?_,
    fun name path => file_mem_nodes_iff, fun name path => folder_mem_nodes_iff, ?_⟩
  · exact ⟨accepted_append_of_not_blocked hne, stands_append_iff hne⟩
  · rw [hforest]
    exact wellFormed_trie (fits_accepted paths).proper

/-- Below a file there is no room for a path two folders deep, of which nothing stays;
    a marker is accepted also for a folder that is there. -/
theorem ofPaths_orderedTrie_below_file :
    let paths := ["lib//b.js", "a"]
    (Blocked (ofPaths paths) (placeOf "a/c/d.js") ∧
        ofPaths (paths ++ ["a/c/d.js"]) = ofPaths paths) ∧
      (placeOf "lib/.folder").segments ≠ [] ∧ ¬ Blocked (ofPaths paths) (placeOf "lib/.folder") ∧
        accepted (paths ++ ["lib/.folder"]) = accepted paths ++ [⟨.folder, ["lib"]⟩] := by
  intro paths
  obtain ⟨-, hdropped, hkept, -⟩ := ofPaths_orderedTrie paths
  have hfits := fits_accepted paths
  have hblocked : Blocked (ofPaths paths) (placeOf "a/c/d.js") := by
    rw [ofPaths_eq_trie, blocked_trie_iff hfits (by decide)
      fun s hs => isSegment_of_mem_placeOf hs]
    decide
  have hne : (placeOf "lib/.folder").segments ≠ [] := by decide
  have hfree : ¬ Blocked (ofPaths paths) (placeOf "lib/.folder") := by
    rw [ofPaths_eq_trie, blocked_trie_iff hfits hne fun s hs => isSegment_of_mem_placeOf hs]
    decide
  have hplace : placeOf "lib/.folder" = ⟨.folder, ["lib"]⟩ := by decide
  exact ⟨⟨hblocked, (hdropped "a/c/d.js" (.inr hblocked)).1⟩, hne, hfree,
    hplace ▸ (hkept "lib/.folder" hne).1 hfree⟩

end Tree

end LivePreview
