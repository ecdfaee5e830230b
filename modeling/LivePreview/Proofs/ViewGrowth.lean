/-
  LivePreview.Proofs.ViewGrowth

  How the folder view grows with the paths.

  A path that is added changes nothing, or puts one chain of new nodes behind the roots or
  behind the children of a folder (`Tree.insert_grows`).  Whatever stands in a forest stays at
  its position when the forest grows so (`Tree.Grows.keeps`).  Siblings therefore stand in the
  order of the first paths that were accepted at or below them
  (`Tree.pairwise_before_children`).
-/

import LivePreview.Proofs.ImportedView

namespace LivePreview

namespace Tree

/-! ## Forests that grow -/

/-- A node with nothing below it but one node under the other. -/
inductive IsChain : Node → Prop
  | file (name path : String) : IsChain (.file name path)
  | emptyFolder (name path : String) : IsChain (.folder name path [])
  | folder (name path : String) {child : Node} (h : IsChain child) :
      IsChain (.folder name path [child])

/-- The second forest is the first with one chain more, which stands behind all roots or
    behind all children of one folder. -/
inductive Grows : List Node → List Node → Prop
  | atEnd (forest : List Node) {node : Node} (h : IsChain node) : Grows forest (forest ++ [node])
  | inside (before after : List Node) (name path : String) {children children' : List Node}
      (h : Grows children children') :
      Grows (before ++ .folder name path children :: after)
        (before ++ .folder name path children' :: after)

/-- The node at a position: its index among the children of its folder is the last one, and
    the others lead to that folder from the roots on. -/
def get? : List Node → List Nat → Option Node
  | _, [] => none
  | forest, [i] => forest[i]?
  | forest, i :: j :: rest => forest[i]?.bind fun node => get? node.children (j :: rest)

/-- Every node of the first forest is in the second one at the same position, with its name,
    its path and its kind. -/
def Keeps (forest forest' : List Node) : Prop :=
  ∀ position node, get? forest position = some node →
    ∃ node', get? forest' position = some node' ∧
      node'.name = node.name ∧ node'.path = node.path ∧ kindOf node' = kindOf node

variable {forest forest' children children' : List Node} {name path base : String}
  {segments : List String}

theorem Keeps.refl (forest : List Node) : Keeps forest forest :=
  fun _ node h => ⟨node, h, rfl, rfl, rfl⟩

/-- What comes behind the roots leaves the nodes where they are. -/
theorem keeps_append (forest more : List Node) : Keeps forest (forest ++ more) := by
  intro position node h
  refine ⟨node, ?_, rfl, rfl, rfl⟩
  match position with
  | [] => cases h
  | [i] =>
    have hlt := (List.getElem?_eq_some_iff.mp h).1
    rwa [get?, List.getElem?_append_left hlt]
  | i :: j :: rest =>
    obtain ⟨root, hroot, hbelow⟩ := Option.bind_eq_some_iff.mp h
    have hlt := (List.getElem?_eq_some_iff.mp hroot).1
    rwa [get?, List.getElem?_append_left hlt, hroot]

/-- A folder in which the nodes stay where they are does not move the nodes around it. -/
theorem Keeps.folder (h : Keeps children children') (before after : List Node)
    (name path : String) :
    Keeps (before ++ .folder name path children :: after)
      (before ++ .folder name path children' :: after) := by
  intro position node hnode
  -- Only the node at that position is another one.
  have hother : ∀ i ≠ before.length, (before ++ .folder name path children' :: after)[i]? =
      (before ++ .folder name path children :: after)[i]? := by
    intro i hi
    rcases Nat.lt_or_gt_of_ne hi with hlt | hgt
    · rw [List.getElem?_append_left hlt, List.getElem?_append_left hlt]
    · obtain ⟨k, rfl⟩ := Nat.exists_eq_add_of_lt hgt
      simp [List.getElem?_append_right, Nat.add_assoc]
  match position with
  | [] => cases hnode
  | [i] =>
    by_cases hi : i = before.length
    · subst hi
      have hfolder : node = .folder name path children := by simpa [get?] using hnode.symm
      exact ⟨.folder name path children', by simp [get?], by rw [hfolder]; exact ⟨rfl, rfl, rfl⟩⟩
    · rw [get?] at hnode
      exact ⟨node, by rw [get?, hother i hi, hnode], rfl, rfl, rfl⟩
  | i :: j :: rest =>
    by_cases hi : i = before.length
    · subst hi
      have hbefore : get? children (j :: rest) = some node := by
        simpa [get?, Node.children] using hnode
      obtain ⟨node', hnode', hsame⟩ := h (j :: rest) node hbefore
      exact ⟨node', by simpa [get?, Node.children] using hnode', hsame⟩
    · rw [get?] at hnode
      exact ⟨node, by rw [get?, hother i hi, hnode], rfl, rfl, rfl⟩

/-- Nothing that stands in a forest moves when it grows. -/
theorem Grows.keeps (h : Grows forest forest') : Keeps forest forest' := by
  induction h with
  | atEnd forest _ => exact keeps_append forest _
  | inside before after name path _ ih => exact ih.folder before after name path

/-! ## Adding grows -/

theorem isChain_leaf (kind : Kind) (name path : String) : IsChain (leaf kind name path) := by
  cases kind with
  | file => exact .file name path
  | folder => exact .emptyFolder name path

/-- Placing changes one node of that name, or puts a new one behind all others. -/
theorem place_cases (name : String) (grow : Option Node → Node) (forest : List Node) :
    (∃ before node after, forest = before ++ node :: after ∧
        place name grow forest = before ++ grow (some node) :: after) ∨
      place name grow forest = forest ++ [grow none] := by
  induction forest with
  | nil => exact .inr rfl
  | cons first rest ih =>
    rw [place]
    split
    · exact .inl ⟨[], first, rest, rfl, rfl⟩
    · rcases ih with ⟨before, node, after, rfl, hplace⟩ | hplace
      · exact .inl ⟨first :: before, node, after, rfl, by rw [hplace]; rfl⟩
      · exact .inr (by rw [hplace]; rfl)

/-- In an empty forest, a place makes one chain. -/
theorem exists_chain_insert (kind : Kind) (base : String) (hne : segments ≠ []) :
    ∃ node, IsChain node ∧ insert kind base segments [] = [node] := by
  induction segments generalizing base with
  | nil => exact absurd rfl hne
  | cons name rest ih =>
    cases rest with
    | nil => exact ⟨_, isChain_leaf kind name (pathBelow base name), rfl⟩
    | cons next rest =>
      obtain ⟨child, hchild, hinsert⟩ := ih (pathBelow base name) (List.cons_ne_nil next rest)
      exact ⟨_, .folder name (pathBelow base name) hchild, by simp only [insert, place, hinsert]⟩

/-- A place with more than one segment goes on below the node of the first one: there is
    nothing to do at a file, and a folder is made if no node has that name. -/
theorem insert_cons_cases (kind : Kind) (base name next : String) (rest : List String)
    (forest : List Node) :
    let below := insert kind (pathBelow base name) (next :: rest)
    insert kind base (name :: next :: rest) forest = forest ∨
      (∃ before n p children after, forest = before ++ .folder n p children :: after ∧
        insert kind base (name :: next :: rest) forest =
          before ++ .folder n p (below children) :: after) ∨
      insert kind base (name :: next :: rest) forest =
        forest ++ [.folder name (pathBelow base name) (below [])] := by
  intro below
  rw [insert]
  rcases place_cases name _ forest with ⟨before, node, after, hforest, hplace⟩ | hplace
  · rw [hplace, hforest]
    cases node with
    | file n p => exact .inl rfl
    | folder n p children => exact .inr (.inl ⟨before, n, p, children, after, rfl, rfl⟩)
  · exact .inr (.inr hplace)

/-- A place that is added to a forest changes nothing, or makes it grow by a chain. -/
theorem insert_grows (kind : Kind) (base : String) (segments : List String)
    (forest : List Node) :
    insert kind base segments forest = forest ∨
      Grows forest (insert kind base segments forest) := by
  induction segments generalizing base forest with
  | nil => exact .inl rfl
  | cons name rest ih =>
    cases rest with
    | nil =>
      rw [insert]
      rcases place_cases name _ forest with ⟨before, node, after, hforest, hplace⟩ | hplace
      · exact .inl (by rw [hplace, hforest, Option.getD_some])
      · rw [hplace]
        exact .inr (.atEnd forest (isChain_leaf kind name (pathBelow base name)))
    | cons next rest =>
      -- The name is taken by a file, or by a folder that takes the rest, or it is new.
      rcases insert_cons_cases kind base name next rest forest with
        hsame | ⟨before, n, p, children, after, rfl, hinsert⟩ | hinsert
      · exact .inl hsame
      · rw [hinsert]
        rcases ih (pathBelow base name) children with hsame | hgrows
        · exact .inl (by rw [hsame])
        · exact .inr (.inside before after n p hgrows)
      · obtain ⟨child, hchild, hbelow⟩ :=
          exists_chain_insert kind (pathBelow base name) (List.cons_ne_nil next rest)
        rw [hinsert, hbelow]
        exact .inr (.atEnd forest (.folder name (pathBelow base name) hchild))

theorem add_grows (forest : List Node) (path : String) :
    add forest path = forest ∨ Grows forest (add forest path) := by
  rw [add_eq_insert]
  exact insert_grows _ _ _ _

/-! ## The first path of a node -/

/-- The path with this index is accepted when the paths are added in order, and it asks for
    these segments or for something below them. -/
def Reaches (paths segments : List String) (i : Nat) : Prop :=
  ∃ path, paths[i]? = some path ∧ ¬Blocked (ofPaths (paths.take i)) (placeOf path) ∧
    segments <+: (placeOf path).segments

/-- The path with this index is the first that reaches these segments. -/
def IsFirst (paths segments : List String) (i : Nat) : Prop :=
  Reaches paths segments i ∧ ∀ j, j < i → ¬Reaches paths segments j

/-- The first path that reaches the one node comes ahead of the first one that reaches the
    other. -/
def Before (paths : List String) (node other : Node) : Prop :=
  ∃ i j, IsFirst paths (Path.segments node.path) i ∧
    IsFirst paths (Path.segments other.path) j ∧ i < j

section First

variable {paths : List String} {i : Nat}

theorem Reaches.lt_length (h : Reaches paths segments i) : i < paths.length := by
  obtain ⟨path, hpath, -⟩ := h
  exact (List.getElem?_eq_some_iff.mp hpath).1

theorem reaches_append_iff_of_lt (h : i < paths.length) (path : String) :
    Reaches (paths ++ [path]) segments i ↔ Reaches paths segments i := by
  rw [Reaches, Reaches, List.getElem?_append_left h, List.take_append_of_le_length h.le]

theorem reaches_length_iff :
    Reaches (paths ++ [path]) segments paths.length ↔
      ¬Blocked (ofPaths paths) (placeOf path) ∧ segments <+: (placeOf path).segments := by
  simp [Reaches]

theorem Reaches.eq_or_lt {path : String} (h : Reaches (paths ++ [path]) segments i) :
    i = paths.length ∨ i < paths.length := by
  have hlt := h.lt_length
  rw [List.length_append, List.length_singleton] at hlt
  omega

/-- With one more path, the segments are reached by a path before it or by the new one. -/
theorem exists_reaches_append_iff (path : String) :
    (∃ i, Reaches (paths ++ [path]) segments i) ↔ (∃ i, Reaches paths segments i) ∨
      ¬Blocked (ofPaths paths) (placeOf path) ∧ segments <+: (placeOf path).segments := by
  rw [← reaches_length_iff]
  constructor
  · rintro ⟨i, hi⟩
    rcases hi.eq_or_lt with rfl | hlt
    · exact .inr hi
    · exact .inl ⟨i, (reaches_append_iff_of_lt hlt path).mp hi⟩
  · rintro (⟨i, hi⟩ | hlast)
    · exact ⟨i, (reaches_append_iff_of_lt hi.lt_length path).mpr hi⟩
    · exact ⟨_, hlast⟩

/-- Some path reaches the segments exactly if an accepted place is at or below them. -/
theorem exists_reaches_iff (hne : segments ≠ []) :
    (∃ i, Reaches paths segments i) ↔ ∃ p ∈ accepted paths, segments <+: p.segments := by
  induction paths using List.reverseRecOn with
  | nil => simp [Reaches, accepted]
  | append_singleton paths path ih =>
    rw [exists_reaches_append_iff, ih]
    by_cases hdropped : (placeOf path).segments = [] ∨ Blocked (ofPaths paths) (placeOf path)
    · -- Nothing with segments is reached by a path that asks for nothing.
      rw [(accepted_append_of_blocked hdropped).2]
      refine or_iff_left ?_
      rintro ⟨hfree, hpre⟩
      rw [hdropped.resolve_right hfree] at hpre
      exact hne (List.prefix_nil.mp hpre)
    · rw [not_or] at hdropped
      rw [accepted_append_of_not_blocked hdropped.1 hdropped.2]
      simp [hdropped.2, or_and_right, exists_or]

/-- Where some path reaches, one is the first. -/
theorem Reaches.exists_isFirst (h : Reaches paths segments i) :
    ∃ j, IsFirst paths segments j := by
  classical
  have hex : ∃ j, Reaches paths segments j := ⟨i, h⟩
  exact ⟨Nat.find hex, Nat.find_spec hex, fun j hj => Nat.find_min hex hj⟩

/-- A path that comes later does not change which one is the first. -/
theorem IsFirst.append (h : IsFirst paths segments i) (path : String) :
    IsFirst (paths ++ [path]) segments i := by
  have hlt := h.1.lt_length
  refine ⟨(reaches_append_iff_of_lt hlt path).mpr h.1, fun j hj => ?_⟩
  rw [reaches_append_iff_of_lt (hj.trans hlt)]
  exact h.2 j hj

/-- Segments that no path reached are reached first by the one more path that reaches them. -/
theorem Reaches.isFirst_of_new {path : String} (h : Reaches (paths ++ [path]) segments i)
    (hnew : ∀ j, ¬Reaches paths segments j) :
    IsFirst (paths ++ [path]) segments paths.length := by
  have hbefore : ∀ j, j < paths.length → ¬Reaches (paths ++ [path]) segments j :=
    fun j hj hreaches => hnew j ((reaches_append_iff_of_lt hj path).mp hreaches)
  rcases h.eq_or_lt with rfl | hlt
  · exact ⟨h, hbefore⟩
  · exact absurd h (hbefore i hlt)

/-! ## The order of siblings -/

theorem mem_firsts_behind_iff {places : List Place} :
    name ∈ firsts (behind segments places) ↔ ∃ p ∈ places, segments ++ [name] <+: p.segments := by
  simp only [mem_firsts, mem_behind]
  constructor
  · rintro ⟨kind, rest, hmem⟩
    exact ⟨_, hmem, ⟨rest, by simp⟩⟩
  · rintro ⟨⟨kind, _⟩, hmem, rest, rfl⟩
    exact ⟨kind, rest, by simpa using hmem⟩

/-- Behind some segments, one more place adds at most one first segment, at the end. -/
theorem exists_firsts_behind_append (segments : List String) (places : List Place) (p : Place) :
    ∃ fresh, firsts (behind segments (places ++ [p])) = firsts (behind segments places) ++ fresh ∧
      fresh.length ≤ 1 ∧ ∀ name ∈ fresh, name ∉ firsts (behind segments places) := by
  have hnone : ∀ ps : List Place, ∃ fresh, firsts ps = firsts ps ++ fresh ∧ fresh.length ≤ 1 ∧
      ∀ name ∈ fresh, name ∉ firsts ps :=
    fun ps => ⟨[], by simp⟩
  obtain ⟨kind, rest⟩ := p
  -- A place that leaves the segments on the way adds nothing behind them.
  induction segments generalizing places rest with
  | nil =>
    simp only [behind]
    cases rest with
    | nil =>
      rw [firsts_append_nil]
      exact hnone places
    | cons name rest =>
      rw [firsts_append]
      split
      · exact hnone places
      · next hnew => exact ⟨[name], rfl, Nat.le_refl 1, by simpa using hnew⟩
  | cons first segments ih =>
    rw [behind, behind, below_append]
    cases rest with
    | nil => simp [below]
    | cons name rest =>
      by_cases hname : name = first
      · subst hname
        rw [below_cons_self]
        exact ih _ rest
      · rw [below_cons_of_ne hname, List.append_nil]
        exact hnone _

theorem mem_firsts_behind_accepted_iff :
    name ∈ firsts (behind segments (accepted paths)) ↔
      ∃ i, Reaches paths (segments ++ [name]) i := by
  rw [mem_firsts_behind_iff, exists_reaches_iff (by simp)]

/-- The first segments behind a place stand in the order of the first paths that reach
    them. -/
theorem pairwise_firsts_behind (paths segments : List String) :
    (firsts (behind segments (accepted paths))).Pairwise fun name other =>
      ∃ i j, IsFirst paths (segments ++ [name]) i ∧ IsFirst paths (segments ++ [other]) j ∧
        i < j := by
  -- By the last path: it adds one first segment at most, and is the first to reach that one.
  induction paths using List.reverseRecOn with
  | nil =>
    have hnil : firsts (behind segments (accepted [])) = [] := by
      rw [List.eq_nil_iff_forall_not_mem]
      intro name hname
      rw [mem_firsts_behind_iff] at hname
      simp [accepted] at hname
    rw [hnil]
    exact List.Pairwise.nil
  | append_singleton paths path ih =>
    have hkept : (firsts (behind segments (accepted paths))).Pairwise fun name other =>
        ∃ i j, IsFirst (paths ++ [path]) (segments ++ [name]) i ∧
          IsFirst (paths ++ [path]) (segments ++ [other]) j ∧ i < j := by
      refine ih.imp fun hbefore => ?_
      obtain ⟨i, j, hi, hj, hlt⟩ := hbefore
      exact ⟨i, j, hi.append path, hj.append path, hlt⟩
    by_cases hdropped : (placeOf path).segments = [] ∨ Blocked (ofPaths paths) (placeOf path)
    · rwa [(accepted_append_of_blocked hdropped).2]
    · rw [not_or] at hdropped
      have haccepted := accepted_append_of_not_blocked hdropped.1 hdropped.2
      obtain ⟨fresh, hfirsts, hlength, hfresh⟩ :=
        exists_firsts_behind_append segments (accepted paths) (placeOf path)
      rw [← haccepted] at hfirsts
      rw [hfirsts]
      refine List.pairwise_append.mpr ⟨hkept, ?_, ?_⟩
      · rcases Nat.le_one_iff_eq_zero_or_eq_one.mp hlength with hzero | hone
        · rw [List.length_eq_zero_iff.mp hzero]
          exact List.Pairwise.nil
        · obtain ⟨name, rfl⟩ := List.length_eq_one_iff.mp hone
          exact List.pairwise_singleton _ name
      · -- A first segment that was there is reached by an earlier path.
        intro name hname other hother
        obtain ⟨i, hi⟩ := mem_firsts_behind_accepted_iff.mp hname
        obtain ⟨j, hj⟩ := hi.exists_isFirst
        have hreached : other ∈ firsts (behind segments (accepted (paths ++ [path]))) :=
          hfirsts ▸ List.mem_append_right _ hother
        obtain ⟨k, hk⟩ := mem_firsts_behind_accepted_iff.mp hreached
        have hnew : ∀ j, ¬Reaches paths (segments ++ [other]) j := fun j hreaches =>
          hfresh other hother (mem_firsts_behind_accepted_iff.mpr ⟨j, hreaches⟩)
        exact ⟨j, paths.length, hj.append path, hk.isFirst_of_new hnew, hj.1.lt_length⟩

theorem pairwise_before_trie (hsegments : ∀ s ∈ segments, Path.IsSegment s) :
    (trie segments (behind segments (accepted paths))).Pairwise (Before paths) := by
  have hproper : Proper (behind segments (accepted paths)) := by
    intro p hp s hs
    exact (fits_accepted paths).proper _ (mem_behind.mp hp) s (List.mem_append_right _ hs)
  have hpath : ∀ name ∈ firsts (behind segments (accepted paths)),
      Path.segments (nodeAt segments (behind segments (accepted paths)) name).path =
        segments ++ [name] := by
    intro name hname
    rw [path_nodeAt]
    refine Path.segments_ofSegments (List.forall_mem_append.mpr ⟨hsegments, ?_⟩)
    exact List.forall_mem_singleton.mpr (hproper.of_mem_firsts hname)
  rw [trie_eq, List.pairwise_map]
  refine (pairwise_firsts_behind paths segments).imp_of_mem fun {name other} hname hother h => ?_
  rw [Before, hpath name hname, hpath other hother]
  exact h

theorem pairwise_before_roots (paths : List String) :
    (ofPaths paths).Pairwise (Before paths) := by
  have htrie : (trie [] (behind [] (accepted paths))).Pairwise (Before paths) :=
    pairwise_before_trie (by simp)
  rw [ofPaths_eq_trie]
  exact htrie

theorem pairwise_before_children {node : Node} (h : node ∈ nodes (ofPaths paths)) :
    node.children.Pairwise (Before paths) := by
  rw [ofPaths_eq_trie] at h
  obtain ⟨segments, hneeded, -, ⟨hnil, -⟩ | htrie⟩ := exists_behind_of_mem_nodes h
  · rw [hnil]
    exact List.Pairwise.nil
  · rw [htrie, List.nil_append]
    exact pairwise_before_trie ((fits_accepted paths).proper.of_needed hneeded)

end First

/-- One more path leaves the folder view as it is, or lets one chain of new nodes grow behind
    the roots or behind the children of a folder; whatever is in the view keeps its position,
    name, path and kind.  So the roots, and the children of each node, stand in the order of
    the first accepted paths at or below them. -/
theorem ofPaths_append_grows (paths : List String) (path : String) :
    (ofPaths (paths ++ [path]) = ofPaths paths ∨
        Grows (ofPaths paths) (ofPaths (paths ++ [path]))) ∧
      Keeps (ofPaths paths) (ofPaths (paths ++ [path])) ∧
      (ofPaths paths).Pairwise (Before paths) ∧
      ∀ node ∈ nodes (ofPaths paths), node.children.Pairwise (Before paths) := by
  have hgrows := add_grows (ofPaths paths) path
  rw [← ofPaths_append_singleton] at hgrows
  refine ⟨hgrows, ?_, pairwise_before_roots paths, fun node => pairwise_before_children⟩
  rcases hgrows with hsame | hgrows
  · rw [hsame]
    exact .refl _
  · exact hgrows.keeps

/-- The paths of two folders come by turns, and the next one leads a folder deeper. -/
theorem ofPaths_append_grows_byTurns :
    let paths := ["src/b.js", "lib/.folder", "src/a.js", "lib/c.js"]
    let src : Node := .folder "src" "src" [.file "b.js" "src/b.js", .file "a.js" "src/a.js"]
    let lib : Node := .folder "lib" "lib" [.file "c.js" "lib/c.js"]
    ofPaths paths = [src, lib] ∧ Grows [src, lib] (ofPaths (paths ++ ["src/d/e.js"])) ∧
      Before paths src lib ∧ src ∈ nodes (ofPaths paths) ∧
        src.children.Pairwise (Before paths) := by
  intro paths src lib
  have hview : ofPaths paths = [src, lib] := rfl
  have hmem : src ∈ nodes (ofPaths paths) := hview ▸ List.mem_cons_self
  obtain ⟨hgrows, -, hroots, hchildren⟩ := ofPaths_append_grows paths "src/d/e.js"
  refine ⟨hview, ?_, ?_, hmem, hchildren src hmem⟩
  · rw [hview] at hgrows
    refine hgrows.resolve_left fun hsame => ?_
    have hlength : (nodes (ofPaths (paths ++ ["src/d/e.js"]))).length = 7 := by decide +kernel
    rw [hsame] at hlength
    cases hlength
  · rw [hview] at hroots
    exact List.rel_of_pairwise_cons hroots List.mem_cons_self

end Tree

end LivePreview
