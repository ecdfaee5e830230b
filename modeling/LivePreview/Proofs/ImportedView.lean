/-
  LivePreview.Proofs.ImportedView

  The folder view of a folder that was imported.

  An import turns folders into keys and markers, in the order of their names, and the view
  makes folders of them again.  Keys that can stand together are all accepted
  (`Path.CleanKeys.accepted_eq`), in the trie of places in order all siblings are in order
  (`Tree.pairwise_children`), and so the view shows the tree that was imported
  (`Disk.ofPaths_importProject`).
-/

import LivePreview.Command.Run
import LivePreview.Proofs.ByteOrder
import LivePreview.Proofs.ReexportedTree

namespace LivePreview

namespace Tree

/-! ## Tries of places in order -/

/-- The places come in the order of their segments. -/
def InOrder (places : List Place) : Prop := places.Pairwise fun p q => p.segments < q.segments

/-- The places behind some segments, as they are seen from there. -/
def behind : List String → List Place → List Place
  | [], places => places
  | name :: segments, places => behind segments (below name places)

variable {above segments : List String} {places : List Place} {name : String} {node : Node}

theorem mem_behind {p : Place} :
    p ∈ behind segments places ↔ ⟨p.kind, segments ++ p.segments⟩ ∈ places := by
  induction segments generalizing places with
  | nil => rfl
  | cons name segments ih =>
    rw [behind, ih, mem_below]
    rfl

theorem InOrder.below (h : InOrder places) (name : String) : InOrder (below name places) := by
  refine List.Pairwise.filterMap _ (fun p q hlt p' hp q' hq => ?_) h
  obtain ⟨kind, segments⟩ := p
  obtain ⟨kind', segments'⟩ := q
  cases segments <;> cases segments' <;> simp only [Option.ite_none_right_eq_some, reduceCtorEq,
    Option.some.injEq] at hp hq
  obtain ⟨rfl, rfl⟩ := hp
  obtain ⟨rfl, rfl⟩ := hq
  simpa using hlt

theorem InOrder.behind (h : InOrder places) (segments : List String) :
    InOrder (behind segments places) := by
  induction segments generalizing places with
  | nil => exact h
  | cons name segments ih => exact ih (h.below name)

theorem eraseDups_sublist : (names : List String) → names.eraseDups.Sublist names
  | [] => List.Sublist.refl _
  | name :: rest => by
    rw [List.eraseDups_cons]
    exact ((eraseDups_sublist _).trans List.filter_sublist).cons_cons name
termination_by names => names.length
decreasing_by exact Nat.lt_succ_of_le (List.length_filter_le _ _)

/-- The first segments of places in order are in order. -/
theorem InOrder.pairwise_firsts (h : InOrder places) : (firsts places).Pairwise (· < ·) := by
  have hheads : (places.filterMap fun p => p.segments.head?).Pairwise (· ≤ ·) := by
    refine List.Pairwise.filterMap _ (fun p q hlt name hp name' hq => ?_) h
    obtain ⟨rest, hp⟩ := List.head?_eq_some_iff.mp hp
    obtain ⟨rest', hq⟩ := List.head?_eq_some_iff.mp hq
    rw [hp, hq, List.cons_lt_cons_iff] at hlt
    exact hlt.elim (fun hlt => Std.le_of_lt hlt) fun heq => Std.le_of_eq heq.1
  exact (hheads.sublist (eraseDups_sublist _)).imp₂
    (fun _ _ hle hne => Std.lt_of_le_of_ne hle hne) (nodup_firsts places)

theorem InOrder.pairwise_trie (h : InOrder places) (above : List String) :
    ((trie above places).map Node.name).Pairwise (· < ·) := by
  rw [map_name_trie]
  exact h.pairwise_firsts

/-- Every node stands at some segments, and below a folder is the trie of the places behind
    these. -/
theorem exists_behind_of_mem_nodes (h : node ∈ nodes (trie above places)) :
    ∃ segments, Needed places segments (kindOf node) ∧
      node.path = Path.ofSegments (above ++ segments) ∧
      (node.children = [] ∧ node.isFolder = false ∨
        node.children = trie (above ++ segments) (behind segments places)) := by
  induction above, places using trie.induct with
  | case1 above places ih =>
    obtain ⟨name, hmem, rfl | hbelow⟩ := mem_nodes_trie.mp h
    · refine ⟨[name], needed_kindOf_nodeAt above hmem, path_nodeAt above places name, ?_⟩
      unfold nodeAt
      dsimp only
      split
      · exact .inl ⟨rfl, rfl⟩
      · exact .inr rfl
    · rcases children_nodeAt above places name with hnil | htrie
      · rw [hnil] at hbelow
        cases hbelow
      · rw [htrie] at hbelow
        obtain ⟨segments, hneeded, hpath, hchildren⟩ := ih name hmem hbelow
        rw [List.append_assoc, List.singleton_append] at hpath hchildren
        exact ⟨name :: segments, needed_below.mp hneeded, hpath, hchildren⟩

/-- In the trie of places in order, the children of a node are in order. -/
theorem InOrder.pairwise_children (h : InOrder places) (hnode : node ∈ nodes (trie above places)) :
    (node.children.map Node.name).Pairwise (· < ·) := by
  obtain ⟨segments, -, -, ⟨hnil, -⟩ | htrie⟩ := exists_behind_of_mem_nodes hnode
  · rw [hnil]
    exact List.Pairwise.nil
  · rw [htrie]
    exact (h.behind segments).pairwise_trie _

/-- A folder is without children if no place goes on behind its own. -/
theorem trie_behind_eq_nil_iff :
    trie above (behind segments places) = [] ↔
      ∀ p ∈ places, segments <+: p.segments → p.segments = segments := by
  have hfirsts : trie above (behind segments places) = [] ↔
      ∀ name, name ∉ firsts (behind segments places) := by
    rw [trie_eq, List.map_eq_nil_iff, List.eq_nil_iff_forall_not_mem]
  rw [hfirsts]
  constructor
  · rintro h ⟨kind, _⟩ hp ⟨rest, rfl⟩
    cases rest with
    | nil => exact List.append_nil segments
    | cons name rest => exact absurd (mem_firsts.mpr ⟨kind, rest, mem_behind.mpr hp⟩) (h name)
  · intro h name hmem
    obtain ⟨kind, rest, hp⟩ := mem_firsts.mp hmem
    have hsame := h _ (mem_behind.mp hp) (List.prefix_append _ _)
    simp at hsame

/-! ## Keys that are all accepted -/

/-- Of places without a conflict none blocks another. -/
theorem Consistent.not_blocks (h : Consistent places) {p q : Place} (hp : p ∈ places)
    (hq : q ∈ places) (hne : p.segments ≠ []) (hne' : q.segments ≠ []) : ¬q.Blocks p := by
  rintro (⟨hkind, hpre, hdiff⟩ | hneeds)
  · exact h q.segments hne' ⟨q, hq, hkind, rfl⟩ ⟨p, hp, hpre, fun heq => absurd heq.symm hdiff⟩
  · cases hkind : p.kind with
    | file =>
      rw [hkind] at hneeds
      exact h p.segments hne ⟨p, hp, hkind, rfl⟩ ⟨q, hq, hneeds⟩
    | folder =>
      rw [hkind] at hneeds
      exact h p.segments hne ⟨q, hq, hneeds⟩ ⟨p, hp, List.prefix_refl _, fun _ => hkind⟩

end Tree

namespace Path

open LivePreview.Tree

variable {keys : List String}

/-- Keys that can stand in one folder are all accepted. -/
theorem CleanKeys.accepted_eq (h : CleanKeys keys) : accepted keys = keys.map placeOf := by
  induction keys using List.reverseRecOn with
  | nil => rfl
  | append_singleton keys key ih =>
    have hne : ∀ k ∈ keys ++ [key], (placeOf k).segments ≠ [] := fun k hk =>
      (h.clean k hk).placeOf_ne_nil
    rw [accepted_append_singleton, ih (h.mono (List.subset_append_left _ _)), accept, if_neg]
    · simp
    · rintro (hnil | ⟨q, hq, hblocks⟩)
      · exact hne key (by simp) hnil
      · obtain ⟨k, hk, rfl⟩ := List.mem_map.mp hq
        exact h.consistent.not_blocks (List.mem_map_of_mem (by simp))
          (List.mem_map_of_mem (List.mem_append_left _ hk)) (hne key (by simp))
          (hne k (List.mem_append_left _ hk)) hblocks

/-- When the keys are added in order, there is room for each. -/
theorem CleanKeys.not_blocked (h : CleanKeys keys) {before after : List String} {key : String}
    (hsplit : keys = before ++ key :: after) : ¬Blocked (ofPaths before) (placeOf key) := by
  intro hblocked
  have hwith : CleanKeys (before ++ [key]) := h.mono (by simp [hsplit])
  have hsame := (accepted_append_of_blocked (.inr hblocked)).2
  rw [hwith.accepted_eq, (hwith.mono (List.subset_append_left _ _)).accepted_eq] at hsame
  simp at hsame

end Path

namespace Disk

open LivePreview.Path LivePreview.Tree

/-! ## The view of an imported folder -/

/-- What stands in the view for an entry. -/
def Entry.kind : Entry → Kind
  | .folder => .folder
  | _ => .file

variable {d : Disk} {root : String} {place s : Place} {entry : Entry}
  {entries : List (Place × Entry)}

/-- The places of the keys that a tree is imported as. -/
def importedPlaces (root : String) (entries : List (Place × Entry)) : List Tree.Place :=
  (importedFiles root entries).map fun f => placeOf f.1

/-- A key has the place of the entry that it was made of. -/
theorem Readable.placeOf_imported? (h : Readable root entries) {e : Place × Entry}
    (hmem : e ∈ entries) {file : String × String} (hfile : imported? root entries e = some file) :
    placeOf file.1 = ⟨e.2.kind, e.1⟩ := by
  obtain ⟨place, entry⟩ := e
  rcases (h.imported?_eq_some_iff hmem).mp hfile with ⟨rfl, hkey⟩ | ⟨rfl, -, hkey, -⟩
  · rw [hkey, (h.placeOf_file hmem).2]
    rfl
  · rw [hkey, (h.placeOf_marker hmem).2]
    rfl

theorem Readable.exists_of_mem_importedPlaces (h : Readable root entries) {p : Tree.Place}
    (hp : p ∈ importedPlaces root entries) : ∃ e ∈ entries, p = ⟨e.2.kind, e.1⟩ := by
  obtain ⟨file, hfile, rfl⟩ := List.mem_map.mp hp
  obtain ⟨e, he, himported⟩ := List.mem_filterMap.mp hfile
  have hmem := mem_inOrder.mp he
  exact ⟨e, hmem, h.placeOf_imported? hmem himported⟩

/-- A file, and a folder with nothing in it, are among the places. -/
theorem Readable.mem_importedPlaces (h : Readable root entries) {e : Place × Entry}
    (hmem : e ∈ entries) (hlast : IsLast entries e.1) :
    ⟨e.2.kind, e.1⟩ ∈ importedPlaces root entries := by
  obtain ⟨s, entry⟩ := e
  refine List.mem_map.mpr ?_
  obtain rfl | ⟨text, rfl⟩ := h.eq_folder_or_file hmem
  · exact ⟨_, (h.mem_importedFiles _ _).mpr (.inr ⟨s, hmem, hlast, rfl, rfl⟩),
      (h.placeOf_marker hmem).2⟩
  · exact ⟨_, (h.mem_importedFiles _ _).mpr (.inl ⟨s, hmem, rfl⟩), (h.placeOf_file hmem).2⟩

/-- The places come in the order of the names on the disk. -/
theorem Readable.inOrder_importedPlaces (h : Readable root entries) :
    InOrder (importedPlaces root entries) := by
  have horder : (inOrder entries).Pairwise fun x y => x ∈ entries ∧ y ∈ entries ∧ x.1 < y.1 :=
    (pairwise_inOrder h.isTree.nodup).imp_of_mem fun hx hy hlt =>
      ⟨mem_inOrder.mp hx, mem_inOrder.mp hy, hlt⟩
  refine List.pairwise_map.mpr (horder.filterMap _ ?_)
  rintro x y ⟨hx, hy, hlt⟩ file hfile file' hfile'
  rwa [h.placeOf_imported? hx hfile, h.placeOf_imported? hy hfile']

/-- A node is needed for the keys where the tree has an entry of its kind. -/
theorem Readable.needed_iff (h : Readable root entries) (hne : s ≠ []) {kind : Kind} :
    Needed (importedPlaces root entries) s kind ↔
      ∃ entry, (s, entry) ∈ entries ∧ entry.kind = kind := by
  constructor
  · rintro ⟨p, hp, hneeds⟩
    obtain ⟨⟨t, entry⟩, hmem, rfl⟩ := h.exists_of_mem_importedPlaces hp
    cases kind with
    | file =>
      obtain ⟨hkind, rfl⟩ := hneeds
      exact ⟨entry, hmem, hkind⟩
    | folder =>
      by_cases heq : t = s
      · subst heq
        exact ⟨entry, hmem, hneeds.2 rfl⟩
      · exact ⟨.folder, h.isTree.above _ hmem s hne hneeds.1 (Ne.symm heq), rfl⟩
  · rintro ⟨entry, hmem, rfl⟩
    -- What lies at the end, further down or right there, has a key.
    obtain ⟨⟨t, last⟩, hmem', hpre, hlast⟩ := exists_isLast hmem
    have hplace := h.mem_importedPlaces hmem' hlast
    by_cases heq : t = s
    · subst heq
      obtain rfl : last = entry := h.isTree.unique hmem' hmem
      refine ⟨_, hplace, ?_⟩
      cases last.kind with
      | file => exact ⟨rfl, rfl⟩
      | folder => exact ⟨hpre, fun _ => rfl⟩
    · obtain rfl : entry = .folder :=
        h.isTree.unique hmem (h.isTree.above _ hmem' s hne hpre (Ne.symm heq))
      exact ⟨_, hplace, hpre, fun hsame => absurd hsame heq⟩

/-- A folder is empty exactly if no place goes on behind its own. -/
theorem Readable.isLast_iff (h : Readable root entries) :
    IsLast entries s ↔
      ∀ p ∈ importedPlaces root entries, s <+: p.segments → p.segments = s := by
  constructor
  · intro hlast p hp hpre
    obtain ⟨e, he, rfl⟩ := h.exists_of_mem_importedPlaces hp
    exact hlast e he hpre
  · intro hplaces e he hpre
    obtain ⟨⟨t, last⟩, hmem', hpre', hlast⟩ := exists_isLast he
    have hsame := hplaces _ (h.mem_importedPlaces hmem' hlast) (hpre.trans hpre')
    dsimp only at hsame hpre'
    rw [hsame] at hpre'
    exact hpre'.eq_of_length_le hpre.length_le

/-- The keys that a tree is imported as. -/
def importedKeys (root : String) (entries : List (Place × Entry)) : List String :=
  (importedFiles root entries).map Prod.fst

theorem Readable.accepted_eq (h : Readable root entries) :
    accepted (importedKeys root entries) = importedPlaces root entries := by
  rw [importedKeys, h.cleanKeys.accepted_eq, List.map_map]
  rfl

/-- The view of the keys is the trie of their places. -/
theorem Readable.ofPaths_eq (h : Readable root entries) :
    ofPaths (importedKeys root entries) = trie [] (importedPlaces root entries) := by
  rw [ofPaths_eq_trie, h.accepted_eq]

theorem Readable.nodup_shown (h : Readable root entries) :
    (entries.map fun e => (e.2.kind, e.1.getLast?, ofSegments e.1)).Nodup := by
  have hplaces := List.pairwise_map.mp h.isTree.nodup
  refine List.pairwise_map.mpr (hplaces.imp_of_mem fun {x y} hx hy hne heq => hne ?_)
  exact ofSegments_inj (fun t ht => (h.isTree.names x hx t ht).isStep.isSegment)
    (fun t ht => (h.isTree.names y hy t ht).isStep.isSegment) (Prod.mk.inj (Prod.mk.inj heq).2).2

/-- The nodes of the view, with kind, name and path, are the entries of the tree. -/
theorem Readable.nodes_perm (h : Readable root entries) :
    ((nodes (ofPaths (importedKeys root entries))).map fun node =>
        (kindOf node, some node.name, node.path)).Perm
      (entries.map fun e => (e.2.kind, e.1.getLast?, ofSegments e.1)) := by
  have hpaths := wellFormed_trie (fits_accepted (importedKeys root entries)).proper |>.nodup_paths
  rw [← ofPaths_eq_trie] at hpaths
  have hnodes : ((nodes (ofPaths (importedKeys root entries))).map fun node =>
      (kindOf node, some node.name, node.path)).Nodup :=
    List.pairwise_map.mpr ((List.pairwise_map.mp hpaths).imp fun hne heq =>
      hne (Prod.mk.inj (Prod.mk.inj heq).2).2)
  -- Neither list holds anything twice, so it is enough that they hold the same.
  rw [List.perm_ext_iff_of_nodup hnodes h.nodup_shown]
  rintro ⟨kind, name?, path⟩
  simp only [List.mem_map, Prod.mk.injEq, Prod.exists]
  constructor
  · rintro ⟨node, hnode, rfl, rfl, rfl⟩
    obtain ⟨s, hneeded, hlast, hpath⟩ := exists_node_ofPaths_iff.mp ⟨node, hnode, rfl, rfl, rfl⟩
    have hne : s ≠ [] := by
      rintro rfl
      cases hlast
    rw [h.accepted_eq, h.needed_iff hne] at hneeded
    obtain ⟨entry, hmem, hkind⟩ := hneeded
    exact ⟨s, entry, hmem, hkind, hlast, hpath.symm⟩
  · rintro ⟨s, entry, hmem, hkind, rfl, rfl⟩
    have hne := h.isTree.ne_nil _ hmem
    have hneeded := (h.needed_iff hne).mpr ⟨entry, hmem, hkind⟩
    rw [← h.accepted_eq] at hneeded
    have hlast := List.getLast?_eq_some_getLast hne
    obtain ⟨node, hnode, hkind', hname, hpath⟩ :=
      exists_node_ofPaths_iff.mpr ⟨s, hneeded, hlast, rfl⟩
    exact ⟨node, hnode, hkind', by rw [hname, hlast], hpath⟩

/-- A folder of the view is without children exactly if the folder is empty. -/
theorem Readable.children_eq_nil_iff (h : Readable root entries) (hmem : (s, .folder) ∈ entries)
    {node : Node} (hnode : node ∈ nodes (ofPaths (importedKeys root entries)))
    (hpath : node.path = ofSegments s) : node.children = [] ↔ IsLast entries s := by
  rw [h.ofPaths_eq] at hnode
  obtain ⟨t, hneeded, hpath', hchildren⟩ := exists_behind_of_mem_nodes hnode
  have hproper : Proper (importedPlaces root entries) :=
    h.accepted_eq ▸ (fits_accepted (importedKeys root entries)).proper
  obtain rfl : s = t := ofSegments_inj
    (fun t ht => (h.isTree.names _ hmem t ht).isStep.isSegment) (hproper.of_needed hneeded)
    (hpath.symm.trans hpath')
  have hne := h.isTree.ne_nil _ hmem
  obtain ⟨entry, hmem', hkind⟩ := (h.needed_iff hne).mp hneeded
  obtain rfl : entry = .folder := h.isTree.unique hmem' hmem
  rcases hchildren with ⟨-, hfile⟩ | htrie
  · rw [kindOf, hfile] at hkind
    cases hkind
  · rw [htrie, trie_behind_eq_nil_iff, h.isLast_iff]

/-- The names come in the order of their bytes. -/
def InByteOrder (forest : List Node) : Prop :=
  (forest.map Node.name).Pairwise fun m n => Text.bytes m < Text.bytes n

theorem loadProject_ofDisk {p : Project} (h : d.importProject root = .ok p) :
    Command.loadProject .ofDisk root d = (.ok p, d) := by
  unfold importProject at h
  unfold Command.loadProject
  split at h
  · cases h
  · next entries hcontents =>
    simp only [bind, StateT.bind, Command.Files.ofDisk, hcontents, h]
    rfl

/-- Where the import succeeds, the command shows the view of the keys and changes nothing. -/
theorem run_tree {p : Project} (h : d.importProject root = .ok p) :
    (Command.Request.tree root).run .ofDisk d =
      (.done ((Tree.toJson (ofPaths p.paths)).pretty ++ "\n"), d) := by
  simp only [Command.Request.run, Command.runTree, bind, StateT.bind, loadProject_ofDisk h]
  rfl

/-- The folder view of a tree of folders and text files that was imported, which is what the
    command shows.  The nodes are the entries of the tree, at their paths; siblings come in the
    order of the bytes of their names; the folders without children are the empty ones; and
    there was room for each key. -/
theorem ofPaths_importProject (hd : WellFormed d) (hroot : d.find root = .ok (place, .folder))
    (htext : ∀ e ∈ d.below place, e.2 = .folder ∨ ∃ text : String, e.2 = .file text.toUTF8)
    (hunmarked : ∀ e ∈ d.below place, e.2 ≠ .folder → e.1.getLast? ≠ some markerName)
    (hopen : ∀ e ∈ d.below place, refusal? (pathIn root e.1) = none) :
    ∃ p, d.importProject root = .ok p ∧
      (Command.Request.tree root).run .ofDisk d =
        (.done ((Tree.toJson (ofPaths p.paths)).pretty ++ "\n"), d) ∧
      ((nodes (ofPaths p.paths)).map fun node => (kindOf node, some node.name, node.path)).Perm
        ((d.below place).map fun e => (e.2.kind, e.1.getLast?, ofSegments e.1)) ∧
      Tree.WellFormed (ofPaths p.paths) ∧
      InByteOrder (ofPaths p.paths) ∧
      (∀ node ∈ nodes (ofPaths p.paths), InByteOrder node.children) ∧
      (∀ node ∈ nodes (ofPaths p.paths), ∀ s, (s, .folder) ∈ d.below place →
        node.path = ofSegments s → (node.children = [] ↔ IsLast (d.below place) s)) ∧
      ∀ before key after, p.paths = before ++ key :: after →
        ¬Blocked (ofPaths before) (placeOf key) := by
  obtain ⟨m, hopens⟩ := exists_opens_of_find hd hroot
  have hread : Readable root (d.below place) :=
    ⟨hd.isTree.below place, htext, hunmarked, hopen⟩
  have himport := hopens.importProject hread
  have hpaths : (Project.ofFiles (importedFiles root (d.below place))).paths =
      importedKeys root (d.below place) := by
    rw [Project.paths, Table.keys, hread.entries_ofFiles, List.map_map]
    rfl
  refine ⟨_, himport, run_tree himport, ?_⟩
  rw [hpaths]
  have horder := hread.inOrder_importedPlaces
  refine ⟨hread.nodes_perm, ?_, ?_, fun node hnode => ?_,
    fun node hnode s hmem hpath => hread.children_eq_nil_iff hmem hnode hpath,
    fun before key after hsplit => hread.cleanKeys.not_blocked hsplit⟩
  · rw [ofPaths_eq_trie]
    exact wellFormed_trie (fits_accepted _).proper
  · rw [hread.ofPaths_eq]
    exact (horder.pairwise_trie []).imp Text.bytes_lt
  · rw [hread.ofPaths_eq] at hnode
    exact (horder.pairwise_children hnode).imp Text.bytes_lt

theorem ofPaths_importProject_nestedDisk :
    nestedDisk.find "." = .ok (["d"], .folder) ∧ ∃ p, nestedDisk.importProject "." = .ok p ∧
      ((nodes (ofPaths p.paths)).map fun node => (kindOf node, some node.name, node.path)).Perm
        [(.folder, "a", "a"), (.folder, "e", "a/e"), (.file, "x.js", "a/x.js"),
          (.file, "a-b", "a-b")] ∧
      InByteOrder (ofPaths p.paths) := by
  have hroot : nestedDisk.find "." = .ok (["d"], .folder) := by decide
  have htree : nestedDisk.below ["d"] = [(["a"], .folder), (["a", "e"], .folder),
      (["a", "x.js"], .file "1".toUTF8), (["a-b"], .file "é".toUTF8)] := by decide
  have htext : ∀ e ∈ nestedDisk.below ["d"],
      e.2 = .folder ∨ ∃ text : String, e.2 = .file text.toUTF8 := by
    rw [htree]
    simp only [List.forall_mem_cons, List.not_mem_nil, false_implies, implies_true, and_true,
      reduceCtorEq, false_or, true_or, true_and, Entry.file.injEq]
    exact ⟨⟨"1", rfl⟩, "é", rfl⟩
  obtain ⟨p, himport, -, hnodes, -, horder, -⟩ :=
    ofPaths_importProject wellFormed_nestedDisk hroot htext (by decide) (by decide)
  rw [htree] at hnodes
  exact ⟨hroot, p, himport, hnodes, horder⟩

/-! ## Files that are not opened -/

/-- A folder with one file in it. -/
def oneFileDisk : Disk :=
  (⟨[(["to"], .folder)], []⟩ : Disk).put ["to", "folder"] (.file "1".toUTF8)

theorem wellFormed_oneFileDisk : WellFormed oneFileDisk := by
  have h := isTree_nil.put (d := ⟨[], []⟩) [] "to" .folder (by decide) rfl rfl
  exact ⟨h.put ["to"] "folder" (.file "1".toUTF8) (by decide) (by decide) (by decide), rfl⟩

/-- A file the path of which is too long is left out, and the view does not show it. -/
theorem ofPaths_importProject_longTarget :
    (WellFormed oneFileDisk ∧ oneFileDisk.find longTarget = .ok (["to"], .folder) ∧
        oneFileDisk.below ["to"] = [(["folder"], .file "1".toUTF8)]) ∧
      ∃ p, oneFileDisk.importProject longTarget = .ok p ∧ ofPaths p.paths = [] := by
  have hfind : oneFileDisk.find longTarget = .ok (["to"], .folder) :=
    find_longTarget_of_get? (by decide)
  have hbelow : oneFileDisk.below ["to"] = [(["folder"], .file "1".toUTF8)] := by decide
  have hrefusal : refusal? (pathIn longTarget ["folder"]) = some .tooLong := refusal?_longTarget
  refine ⟨⟨wellFormed_oneFileDisk, hfind, hbelow⟩, .ofFiles [], ?_, rfl⟩
  rw [importProject, contents, hfind]
  dsimp only
  rw [hbelow, Project.ofEntries, unopened?, inOrder, List.mergeSort_singleton]
  simp [imported?, hrefusal]

end Disk

end LivePreview
