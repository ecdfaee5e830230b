/-
  LivePreview.Proofs.RebuiltView

  The folder view is its own normal form.

  A view is written down as a list of paths, one for each file and a marker for each folder
  without children (`Tree.listing`).  Adding these paths one by one puts each subtree behind the
  ones that are there already (`Tree.insertAll_leaves`), so the list gives the view again
  (`Tree.ofPaths_listing`).
-/

import LivePreview.Proofs.ShownFiles

namespace LivePreview

namespace Tree

open LivePreview.Path (IsSegment isMarker marker markerName segments ofSegments)

/-! ## The paths that make up a view -/

mutual

/-- The paths of the files at and below a node, in order; a folder without children has its
    marker there. -/
def listingOf : Node → List String
  | .file _ path => [path]
  | .folder _ path [] => [marker path]
  | .folder _ _ (child :: rest) => listing (child :: rest)

/-- The paths of all files of a forest from the front to the back, and the markers of the
    folders without children. -/
def listing : List Node → List String
  | [] => []
  | node :: rest => listingOf node ++ listing rest

end

/-- The place as it is seen from a folder further up. -/
def Place.under (p : Place) (name : String) : Place := ⟨p.kind, name :: p.segments⟩

mutual

/-- What the paths of a node ask for, as it is seen from the folder of the node. -/
def leavesOf : Node → List Place
  | .file name _ => [⟨.file, [name]⟩]
  | .folder name _ [] => [⟨.folder, [name]⟩]
  | .folder name _ (child :: rest) => (leaves (child :: rest)).map (·.under name)

/-- What the paths of a forest ask for, as it is seen from the folder of the forest. -/
def leaves : List Node → List Place
  | [] => []
  | node :: rest => leavesOf node ++ leaves rest

end

/-- Siblings below some segments as they stand in a view: their names are segments and differ
    from each other, no file has the name of markers, and the paths go down by one name at a
    time. -/
inductive Shaped : List String → List Node → Prop
  | nil (above : List String) : Shaped above []
  | file {above : List String} {name : String} {rest : List Node} (hname : IsSegment name)
      (hmarker : name ≠ markerName) (hnew : name ∉ rest.map Node.name) (hrest : Shaped above rest) :
      Shaped above (.file name (ofSegments (above ++ [name])) :: rest)
  | folder {above : List String} {name : String} {children rest : List Node}
      (hname : IsSegment name) (hchildren : Shaped (above ++ [name]) children)
      (hnew : name ∉ rest.map Node.name) (hrest : Shaped above rest) :
      Shaped above (.folder name (ofSegments (above ++ [name])) children :: rest)

variable {above : List String} {forest : List Node} {places : List Place} {base name : String}

/-- The trie of places that name no file as markers are named. -/
theorem shaped_trie (hproper : Proper places)
    (hfiles : ∀ ss, ⟨.file, ss⟩ ∈ places → ss.getLast? ≠ some markerName) :
    Shaped above (trie above places) := by
  -- By the recursion of the trie, and within it by the names of one level.
  induction above, places using trie.induct with
  | case1 above places ih =>
    rw [trie_eq]
    have hnodes : ∀ names : List String, names.Nodup → names ⊆ firsts places →
        Shaped above (names.map (nodeAt above places)) := by
      intro names hnodup hsub
      induction names with
      | nil => exact .nil above
      | cons name rest ihrest =>
        rw [List.nodup_cons] at hnodup
        obtain ⟨hmem, hsub⟩ := List.cons_subset.mp hsub
        have hname : IsSegment name := hproper.of_mem_firsts hmem
        have hrest := ihrest hnodup.2 hsub
        have hnew : name ∉ (rest.map (nodeAt above places)).map Node.name := by
          simpa [List.map_map, Function.comp_def] using hnodup.1
        rw [List.map_cons]
        by_cases hfile : ⟨.file, []⟩ ∈ below name places
        · rw [nodeAt_of_file hfile]
          refine .file hname ?_ hnew hrest
          rintro rfl
          exact hfiles _ (mem_below.mp hfile) rfl
        · rw [nodeAt_of_folder hfile]
          refine .folder hname (ih name hmem (hproper.below name) ?_) hnew hrest
          intro ss hss hlast
          refine hfiles _ (mem_below.mp hss) ?_
          rw [List.getLast?_cons, hlast]
          rfl
    exact hnodes _ (nodup_firsts places) (List.Subset.refl _)

/-! ## The places of the listed paths -/

theorem placeOf_ofSegments_concat (h : ∀ s ∈ above ++ [name], IsSegment s)
    (hname : name ≠ markerName) :
    placeOf (ofSegments (above ++ [name])) = ⟨.file, above ++ [name]⟩ := by
  have hmarker : isMarker (ofSegments (above ++ [name])) = false := by
    rw [isMarker, Path.name_ofSegments (h name (by simp))]
    simpa using hname
  rw [Path.placeOf_of_not_isMarker hmarker, Path.segments_ofSegments h]

theorem placeOf_marker_ofSegments {ss : List String} (hne : ss ≠ []) (h : ∀ s ∈ ss, IsSegment s) :
    placeOf (marker (ofSegments ss)) = ⟨.folder, ss⟩ := by
  have hpath : marker (ofSegments ss) = ofSegments (ss ++ [markerName]) :=
    (Path.ofSegments_append_singleton hne markerName).symm
  have hall : ∀ s ∈ ss ++ [markerName], IsSegment s :=
    List.forall_mem_append.mpr ⟨h, List.forall_mem_singleton.mpr (by decide)⟩
  rw [placeOf, if_pos (Path.isMarker_marker _), hpath, Path.segments_ofSegments hall,
    List.dropLast_concat]

/-- The listed paths ask for the leaves of the forest. -/
theorem Shaped.map_placeOf_listing (h : Shaped above forest) (habove : ∀ s ∈ above, IsSegment s) :
    (listing forest).map placeOf =
      (leaves forest).map fun p => ⟨p.kind, above ++ p.segments⟩ := by
  induction h with
  | nil above => rfl
  | @file above name rest hname hmarker _ _ ih =>
    have hall : ∀ s ∈ above ++ [name], IsSegment s :=
      List.forall_mem_append.mpr ⟨habove, List.forall_mem_singleton.mpr hname⟩
    rw [listing, leaves, List.map_append, List.map_append, ih habove]
    simp [listingOf, leavesOf, placeOf_ofSegments_concat hall hmarker]
  | @folder above name children rest hname _ _ _ ihchildren ihrest =>
    have hall : ∀ s ∈ above ++ [name], IsSegment s :=
      List.forall_mem_append.mpr ⟨habove, List.forall_mem_singleton.mpr hname⟩
    rw [listing, leaves, List.map_append, List.map_append, ihrest habove]
    congr 1
    cases children with
    | nil => simp [listingOf, leavesOf, placeOf_marker_ofSegments (by simp) hall]
    | cons child children =>
      rw [listingOf, leavesOf, ihchildren hall, List.map_map]
      simp [Place.under, Function.comp_def]

/-! ## Adding the leaves one by one -/

/-- The forest with all of the places added to it in order. -/
def insertAll (base : String) (places : List Place) (forest : List Node) : List Node :=
  places.foldl (fun forest p => insert p.kind base p.segments forest) forest

theorem insertAll_append (base : String) (places more : List Place) (forest : List Node) :
    insertAll base (places ++ more) forest = insertAll base more (insertAll base places forest) :=
  List.foldl_append

/-- Nodes of other names are passed over. -/
theorem place_append {before : List Node} (h : name ∉ before.map Node.name)
    (grow : Option Node → Node) (after : List Node) :
    place name grow (before ++ after) = before ++ place name grow after := by
  induction before with
  | nil => rfl
  | cons node before ih =>
    rw [List.map_cons, List.mem_cons, not_or] at h
    rw [List.cons_append, place, if_neg (Ne.symm h.1), ih h.2, List.cons_append]

/-- A place is added behind nodes that have other names than its first segment. -/
theorem insert_append {before : List Node} (hnew : name ∉ before.map Node.name) (kind : Kind)
    (base : String) (rest : List String) (after : List Node) :
    insert kind base (name :: rest) (before ++ after) =
      before ++ insert kind base (name :: rest) after := by
  cases rest with
  | nil => exact place_append hnew _ after
  | cons next rest => exact place_append hnew _ after

theorem insertAll_under_append {before : List Node} (hnew : name ∉ before.map Node.name)
    (base : String) (places : List Place) (after : List Node) :
    insertAll base (places.map (·.under name)) (before ++ after) =
      before ++ insertAll base (places.map (·.under name)) after := by
  induction places generalizing after with
  | nil => rfl
  | cons p places ih =>
    have hstep := insert_append hnew p.kind base p.segments after
    simp only [insertAll, List.map_cons, List.foldl_cons, Place.under, hstep] at ih ⊢
    exact ih _

/-- Places under the name of a folder are added in there. -/
theorem insertAll_under_folder (hsegments : ∀ p ∈ places, p.segments ≠ []) (base name path : String)
    (children : List Node) :
    insertAll base (places.map (·.under name)) [.folder name path children] =
      [.folder name path (insertAll (pathBelow base name) places children)] := by
  induction places generalizing children with
  | nil => rfl
  | cons p places ih =>
    obtain ⟨next, rest, hp⟩ := List.exists_cons_of_ne_nil (hsegments p List.mem_cons_self)
    have hstep : insert p.kind base (name :: p.segments) [.folder name path children] =
        [.folder name path (insert p.kind (pathBelow base name) p.segments children)] := by
      simp [hp, insert, place, Node.name]
    simp only [insertAll, List.map_cons, List.foldl_cons, Place.under, hstep] at ih ⊢
    exact ih (fun q hq => hsegments q (List.mem_cons_of_mem p hq)) _

/-- Where there is nothing yet, places under a name make its folder. -/
theorem insertAll_under (hne : places ≠ []) (hsegments : ∀ p ∈ places, p.segments ≠ [])
    (base name : String) :
    insertAll base (places.map (·.under name)) [] =
      [.folder name (pathBelow base name) (insertAll (pathBelow base name) places [])] := by
  obtain ⟨p, rest, rfl⟩ := List.exists_cons_of_ne_nil hne
  obtain ⟨next, more, hp⟩ := List.exists_cons_of_ne_nil (hsegments p List.mem_cons_self)
  have hstep : insert p.kind base (name :: p.segments) [] =
      [.folder name (pathBelow base name) (insert p.kind (pathBelow base name) p.segments [])] := by
    rw [hp]
    rfl
  have hrest := insertAll_under_folder
    (fun q hq => hsegments q (List.mem_cons_of_mem p hq)) base name (pathBelow base name)
    (insert p.kind (pathBelow base name) p.segments [])
  simpa only [insertAll, List.map_cons, List.foldl_cons, Place.under, hstep] using hrest

theorem segments_ne_nil_of_mem_leaves {p : Place} (h : p ∈ leaves forest) : p.segments ≠ [] := by
  induction forest with
  | nil => cases h
  | cons node rest ih =>
    rcases List.mem_append.mp h with hnode | hrest
    · match node with
      | .file name _ | .folder name _ [] =>
        rw [List.mem_singleton.mp hnode]
        exact List.cons_ne_nil name []
      | .folder name _ (child :: children) =>
        obtain ⟨q, -, rfl⟩ := List.mem_map.mp hnode
        exact List.cons_ne_nil name q.segments
    · exact ih hrest

theorem Shaped.leaves_ne_nil (h : Shaped above forest) (hne : forest ≠ []) :
    leaves forest ≠ [] := by
  induction h with
  | nil => exact absurd rfl hne
  | file => simp [leaves, leavesOf]
  | @folder above name children rest _ _ _ _ ihchildren =>
    cases children with
    | nil => simp [leaves, leavesOf]
    | cons child children =>
      rw [leaves, leavesOf]
      refine List.append_ne_nil_of_left_ne_nil (fun hnil => ?_) (leaves rest)
      exact ihchildren (List.cons_ne_nil child children) (List.map_eq_nil_iff.mp hnil)

theorem disjoint_names_concat (node : Node) {before rest : List Node}
    (h : (before.map Node.name).Disjoint (rest.map Node.name))
    (hnew : node.name ∉ rest.map Node.name) :
    ((before ++ [node]).map Node.name).Disjoint (rest.map Node.name) := by
  rw [List.map_append, List.disjoint_append_left]
  exact ⟨h, List.singleton_disjoint.mpr hnew⟩

/-- A node without children, given by its one leaf, is put behind nodes of other names. -/
theorem insertAll_childless (habove : "" ∉ above) {before : List Node}
    (hother : name ∉ before.map Node.name) :
    (insertAll (ofSegments above) (leavesOf (.file name (ofSegments (above ++ [name])))) before =
        before ++ [.file name (ofSegments (above ++ [name]))]) ∧
      insertAll (ofSegments above) (leavesOf (.folder name (ofSegments (above ++ [name])) []))
          before = before ++ [.folder name (ofSegments (above ++ [name])) []] := by
  rw [← pathBelow_ofSegments habove name]
  have hbehind := fun kind => insert_append hother kind (ofSegments above) [] []
  simp only [List.append_nil] at hbehind
  exact ⟨hbehind .file, hbehind .folder⟩

/-- A folder with children, given by the leaves in it, is put behind nodes of other names, if its
    children are put into an empty folder. -/
theorem insertAll_folder (habove : "" ∉ above) {before children : List Node}
    (hother : name ∉ before.map Node.name) (hne : leaves children ≠ [])
    (hinside : insertAll (ofSegments (above ++ [name])) (leaves children) [] = children) :
    insertAll (ofSegments above) ((leaves children).map (·.under name)) before =
      before ++ [.folder name (ofSegments (above ++ [name])) children] := by
  have hfolder := insertAll_under hne (fun p hp => segments_ne_nil_of_mem_leaves hp)
    (ofSegments above) name
  have hbehind := insertAll_under_append hother (ofSegments above) (leaves children) []
  rwa [List.append_nil, hfolder, pathBelow_ofSegments habove name, hinside] at hbehind

/-- Adding its leaves one by one puts a forest behind nodes of other names. -/
theorem Shaped.insertAll_leaves (h : Shaped above forest) (habove : "" ∉ above)
    {before : List Node} (hbefore : (before.map Node.name).Disjoint (forest.map Node.name)) :
    insertAll (ofSegments above) (leaves forest) before = before ++ forest := by
  -- Each node is put behind those before it with all of its leaves.
  induction h generalizing before with
  | nil above => exact (List.append_nil before).symm
  | @file above name rest hname _ hnew _ ih =>
    obtain ⟨hfirst, hrest⟩ := List.disjoint_cons_right.mp hbefore
    have hother : name ∉ before.map Node.name := hfirst
    have hnext := disjoint_names_concat (.file name (ofSegments (above ++ [name]))) hrest hnew
    rw [leaves, insertAll_append, (insertAll_childless habove hother).1, ih habove hnext,
      List.append_assoc, List.singleton_append]
  | @folder above name children rest hname hchildren hnew _ ihchildren ihrest =>
    obtain ⟨hfirst, hrest⟩ := List.disjoint_cons_right.mp hbefore
    have hother : name ∉ before.map Node.name := hfirst
    have hstep : insertAll (ofSegments above)
        (leavesOf (.folder name (ofSegments (above ++ [name])) children)) before =
          before ++ [.folder name (ofSegments (above ++ [name])) children] := by
      cases children with
      | nil => exact (insertAll_childless habove hother).2
      | cons child children =>
        have hhere : "" ∉ above ++ [name] := by simpa [habove] using Ne.symm hname.1
        have hinside : insertAll (ofSegments (above ++ [name])) (leaves (child :: children)) [] =
            [] ++ child :: children := ihchildren hhere (List.disjoint_nil_left _)
        exact insertAll_folder habove hother
          (hchildren.leaves_ne_nil (List.cons_ne_nil child children)) hinside
    have hnext :=
      disjoint_names_concat (.folder name (ofSegments (above ++ [name])) children) hrest hnew
    rw [leaves, insertAll_append, hstep, ihrest habove hnext, List.append_assoc,
      List.singleton_append]

/-! ## The view of the listed paths -/

theorem ofPaths_eq_insertAll (paths : List String) :
    ofPaths paths = insertAll "" (paths.map placeOf) [] := by
  have hadd : add = fun forest path =>
      insert (placeOf path).kind "" (placeOf path).segments forest := by
    funext forest path
    exact add_eq_insert forest path
  rw [ofPaths, insertAll, List.foldl_map, hadd]

/-- Paths without a slash at the end are shaped into a view. -/
theorem shaped_ofPaths {paths : List String}
    (h : ∀ path ∈ paths, path.toList.getLast? ≠ some '/') : Shaped [] (ofPaths paths) := by
  rw [ofPaths_eq_trie]
  refine shaped_trie (fits_accepted paths).proper fun ss hss => ?_
  obtain ⟨path, hpath, hplace⟩ := exists_of_mem_accepted hss
  obtain ⟨hmarker, rfl⟩ := Path.of_placeOf_eq_file hplace
  by_cases hempty : Path.name path = ""
  · -- Only the empty path has an empty name here, and it has no segments.
    rw [(Path.getLast?_of_name_eq_empty hempty).resolve_right (h path hpath)]
    decide
  · rw [Path.getLast?_segments hempty]
    simpa [isMarker] using hmarker

/-- The folder view of paths that do not end in a slash is the view of its own listing: the
    paths of its files from the front to the back, with a marker for each folder without
    children. -/
theorem ofPaths_listing {paths : List String}
    (h : ∀ path ∈ paths, path.toList.getLast? ≠ some '/') :
    ofPaths (listing (ofPaths paths)) = ofPaths paths := by
  have hshaped := shaped_ofPaths h
  have hplaces : (listing (ofPaths paths)).map placeOf = leaves (ofPaths paths) := by
    rw [hshaped.map_placeOf_listing (by simp)]
    simp
  rw [ofPaths_eq_insertAll, hplaces]
  exact hshaped.insertAll_leaves (by simp) (List.disjoint_nil_left _)

/-- Files in the way of folders, a folder that has the name of markers, empty segments, and a
    marker outside of all folders. -/
theorem ofPaths_listing_conflicts :
    let paths := ["lib//c.js", "a", "a/b.js", ".folder/x/.folder", "lib/.folder/.folder",
      "a/.folder", "lib", "/.folder", "", "lib/d.js"]
    let listed := ["lib/c.js", "lib/.folder/.folder", "lib/d.js", "a", ".folder/x/.folder"]
    (∀ path ∈ paths, path.toList.getLast? ≠ some '/') ∧ listing (ofPaths paths) = listed ∧
      ofPaths listed = ofPaths paths := by
  intro paths listed
  have hends : ∀ path ∈ paths, path.toList.getLast? ≠ some '/' := by decide
  have hlisting : listing (ofPaths paths) = listed := by decide +kernel
  exact ⟨hends, hlisting, hlisting ▸ ofPaths_listing hends⟩

end Tree

end LivePreview
