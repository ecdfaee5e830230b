/-
  LivePreview.Proofs.Trie

  The ordered trie of some places.

  A place says what is asked for, a file or a folder, and the segments that lead
  there.  `Tree.trie` groups places by their first segments, in the order in which
  these occur first.  Adding a place to a forest is described on the places: nothing
  changes if one of them is in the way (`insert_of_blocks`), and otherwise the forest is
  the trie of the places with the new one behind them (`insert_trie`).  What stands in a
  trie is read off its places (`exists_needed_of_mem_nodes`, `exists_node_of_needed`).
-/

import LivePreview.Tree
import Mathlib.Data.List.Nodup

namespace LivePreview

namespace Tree

/-! ## Places -/

/-- What a path asks for, and the segments that lead there. -/
structure Place where
  kind : Kind
  segments : List String
deriving DecidableEq

/-- The kind that is not this one. -/
def Kind.other : Kind → Kind
  | .file => .folder
  | .folder => .file

/-- For the place, a node of a kind has to stand at these segments: its own node, or
    a folder on the way to it. -/
def Place.Needs (p : Place) (segments : List String) : Kind → Prop
  | .file => p.kind = .file ∧ p.segments = segments
  | .folder => segments <+: p.segments ∧ (p.segments = segments → p.kind = .folder)

/-- A node of that kind has to stand at these segments for one of the places. -/
def Needed (places : List Place) (segments : List String) (kind : Kind) : Prop :=
  ∃ p ∈ places, p.Needs segments kind

/-- With the first place there, there is no room for the second: the way to it leads
    through a file, or a node of the other kind is where it should be. -/
def Place.Blocks (q p : Place) : Prop :=
  (q.kind = .file ∧ q.segments <+: p.segments ∧ q.segments ≠ p.segments) ∨
    q.Needs p.segments p.kind.other

instance (p : Place) (segments : List String) (kind : Kind) : Decidable (p.Needs segments kind) :=
  match kind with
  | .file => inferInstanceAs (Decidable (_ ∧ _))
  | .folder => inferInstanceAs (Decidable (_ ∧ (_ → _)))

instance (q p : Place) : Decidable (q.Blocks p) := inferInstanceAs (Decidable (_ ∨ _))

/-- What a place needs lies on the way to it. -/
theorem Place.Needs.isPrefix {p : Place} {segments : List String} {kind : Kind}
    (h : p.Needs segments kind) : segments <+: p.segments := by
  cases kind with
  | file => exact h.2 ▸ List.prefix_refl p.segments
  | folder => exact h.1

/-- For a folder, folders are needed on the way to it and right there. -/
theorem needs_folder_iff {ss ts : List String} :
    (⟨.folder, ss⟩ : Place).Needs ts .folder ↔ ts <+: ss :=
  and_iff_left fun _ => rfl

/-- For a file, folders are needed above it. -/
theorem needs_file_iff {ss ts : List String} {name : String} :
    (⟨.file, ss ++ [name]⟩ : Place).Needs ts .folder ↔ ts <+: ss := by
  constructor
  · rintro ⟨hpre, hkind⟩
    refine (List.prefix_concat_iff.mp hpre).resolve_left fun heq => ?_
    cases hkind heq.symm
  · intro hpre
    refine ⟨hpre.trans (List.prefix_append ss [name]), ?_⟩
    rintro rfl
    exact absurd hpre.length_le (by simp)

/-- The places below a name, as they are seen from there. -/
def below (name : String) (places : List Place) : List Place :=
  places.filterMap fun p =>
    match p.segments with
    | first :: rest => if first = name then some ⟨p.kind, rest⟩ else none
    | [] => none

/-- The first segments, each where it occurs first. -/
def firsts (places : List Place) : List String :=
  (places.filterMap fun p => p.segments.head?).eraseDups

/-- The number of segments in all places. -/
def size (places : List Place) : Nat := (places.flatMap Place.segments).length

/-! ### Places below a name -/

theorem mem_below {name : String} {places : List Place} {p : Place} :
    p ∈ below name places ↔ ⟨p.kind, name :: p.segments⟩ ∈ places := by
  unfold below
  rw [List.mem_filterMap]
  constructor
  · rintro ⟨⟨kind, segments⟩, hmem, hp⟩
    cases segments with
    | nil => cases hp
    | cons first rest =>
      dsimp only at hp
      split at hp
      · next heq =>
        subst heq
        cases hp
        exact hmem
      · cases hp
  · intro hmem
    exact ⟨_, hmem, by simp⟩

theorem mem_firsts {name : String} {places : List Place} :
    name ∈ firsts places ↔ ∃ kind rest, ⟨kind, name :: rest⟩ ∈ places := by
  simp only [firsts, List.mem_eraseDups, List.mem_filterMap]
  constructor
  · rintro ⟨⟨kind, segments⟩, hmem, hhead⟩
    obtain ⟨rest, rfl⟩ := List.head?_eq_some_iff.mp hhead
    exact ⟨kind, rest, hmem⟩
  · rintro ⟨kind, rest, hmem⟩
    exact ⟨_, hmem, rfl⟩

theorem below_append (name : String) (places : List Place) (p : Place) :
    below name (places ++ [p]) = below name places ++ below name [p] := by
  simp [below]

theorem below_cons_self (name : String) (kind : Kind) (rest : List String) :
    below name [⟨kind, name :: rest⟩] = [⟨kind, rest⟩] := by
  simp [below]

theorem below_cons_of_ne {name first : String} (h : first ≠ name) (kind : Kind)
    (rest : List String) : below name [⟨kind, first :: rest⟩] = [] := by
  simp [below, h]

theorem below_eq_nil {name : String} {places : List Place} (h : name ∉ firsts places) :
    below name places = [] := by
  rw [List.eq_nil_iff_forall_not_mem]
  intro p hp
  exact h (mem_firsts.mpr ⟨p.kind, p.segments, mem_below.mp hp⟩)

theorem nodup_firsts (places : List Place) : (firsts places).Nodup := by
  unfold firsts
  generalize places.filterMap (fun p => p.segments.head?) = names
  -- Taking the first occurrence away takes all occurrences, so the rest gets shorter.
  induction hn : names.length using Nat.strongRecOn generalizing names with
  | ind n ih =>
    cases names with
    | nil => exact List.nodup_nil
    | cons name rest =>
      rw [List.eraseDups_cons, List.nodup_cons]
      refine ⟨by simp [List.mem_eraseDups], ih _ ?_ _ rfl⟩
      have hle := List.length_filter_le (fun other => !other == name) rest
      rw [List.length_cons] at hn
      omega

/-- A first segment that is there keeps its position; a new one goes to the end. -/
theorem firsts_append (places : List Place) (kind : Kind) (name : String)
    (rest : List String) :
    firsts (places ++ [⟨kind, name :: rest⟩]) =
      if name ∈ firsts places then firsts places else firsts places ++ [name] := by
  have hhead : [(⟨kind, name :: rest⟩ : Place)].filterMap (fun p => p.segments.head?) = [name] :=
    rfl
  simp only [firsts, List.filterMap_append, hhead, List.eraseDups_append, List.mem_eraseDups]
  generalize places.filterMap (fun p => p.segments.head?) = names
  by_cases h : name ∈ names <;> simp [List.removeAll, h, List.eraseDups_cons]

/-- A place without segments has no first segment. -/
theorem firsts_append_nil (places : List Place) (kind : Kind) :
    firsts (places ++ [⟨kind, []⟩]) = firsts places := by
  have hhead : [(⟨kind, []⟩ : Place)].filterMap (fun p => p.segments.head?) = [] := rfl
  rw [firsts, List.filterMap_append, hhead, List.append_nil, firsts]

theorem size_below_le (name : String) (places : List Place) :
    size (below name places) ≤ size places := by
  induction places with
  | nil => exact Nat.le_refl _
  | cons p rest ih =>
    have hp : size (below name [p]) ≤ p.segments.length := by
      obtain ⟨kind, segments⟩ := p
      cases segments with
      | nil => exact Nat.le_refl _
      | cons first segments => by_cases h : first = name <;> simp [below, size, h]
    have hcons : below name (p :: rest) = below name [p] ++ below name rest := by
      rw [← List.singleton_append, below, List.filterMap_append]
      rfl
    simp only [size, hcons, List.flatMap_append, List.flatMap_cons, List.length_append] at *
    omega

/-- Below a first segment the places are shorter. -/
theorem size_below_lt {name : String} {places : List Place} (h : name ∈ firsts places) :
    size (below name places) < size places := by
  obtain ⟨kind, rest, hmem⟩ := mem_firsts.mp h
  obtain ⟨before, after, rfl⟩ := List.append_of_mem hmem
  have hbefore := size_below_le name before
  have hafter := size_below_le name after
  have hsplit : below name (before ++ ⟨kind, name :: rest⟩ :: after) =
      below name before ++ ⟨kind, rest⟩ :: below name after := by
    simp [below]
  simp only [size, hsplit, List.flatMap_append, List.flatMap_cons, List.length_append,
    List.length_cons] at *
  omega

/-! ## The trie -/

/-- The ordered trie of some places, from a place on: for each first segment, in the
    order of their first occurrences, a file if a file is asked for right there, and
    otherwise a folder with the trie of what is below. -/
def trie (above : List String) (places : List Place) : List Node :=
  (firsts places).attach.map fun ⟨name, _⟩ =>
    let here := above ++ [name]
    if ⟨.file, []⟩ ∈ below name places then .file name (Path.ofSegments here)
    else .folder name (Path.ofSegments here) (trie here (below name places))
termination_by size places
decreasing_by exact size_below_lt ‹_›

/-- The node of a first segment. -/
def nodeAt (above : List String) (places : List Place) (name : String) : Node :=
  let here := above ++ [name]
  if ⟨.file, []⟩ ∈ below name places then .file name (Path.ofSegments here)
  else .folder name (Path.ofSegments here) (trie here (below name places))

theorem trie_eq (above : List String) (places : List Place) :
    trie above places = (firsts places).map (nodeAt above places) := by
  rw [trie]
  exact List.attach_map_val (f := nodeAt above places)

@[simp] theorem trie_nil (above : List String) : trie above [] = [] := by
  rw [trie_eq]
  rfl

@[simp] theorem name_nodeAt (above : List String) (places : List Place) (name : String) :
    (nodeAt above places name).name = name := by
  unfold nodeAt
  dsimp only
  split <;> rfl

theorem nodeAt_of_file {above : List String} {places : List Place} {name : String}
    (h : ⟨.file, []⟩ ∈ below name places) :
    nodeAt above places name = .file name (Path.ofSegments (above ++ [name])) := by
  rw [nodeAt, if_pos h]

theorem nodeAt_of_folder {above : List String} {places : List Place} {name : String}
    (h : ⟨.file, []⟩ ∉ below name places) :
    nodeAt above places name =
      .folder name (Path.ofSegments (above ++ [name]))
        (trie (above ++ [name]) (below name places)) := by
  rw [nodeAt, if_neg h]

theorem nodeAt_append_of_ne {first name : String} (h : first ≠ name) (above : List String)
    (places : List Place) (kind : Kind) (rest : List String) :
    nodeAt above (places ++ [⟨kind, first :: rest⟩]) name = nodeAt above places name := by
  rw [nodeAt, below_append, below_cons_of_ne h, List.append_nil, nodeAt]

/-- A place without segments counts for nothing in the trie. -/
theorem trie_append_nil (above : List String) (places : List Place) (kind : Kind) :
    trie above (places ++ [⟨kind, []⟩]) = trie above places := by
  have hbelow : ∀ name, below name (places ++ [⟨kind, []⟩]) = below name places := by
    intro name
    rw [below_append]
    exact List.append_nil _
  have hnode : ∀ name, nodeAt above (places ++ [⟨kind, []⟩]) name = nodeAt above places name := by
    intro name
    rw [nodeAt, hbelow, nodeAt]
  rw [trie_eq, trie_eq, firsts_append_nil, List.map_congr_left fun name _ => hnode name]

/-! ## Adding a place -/

/-- Placing among nodes of different names changes the one of that name or adds one at
    the end. -/
theorem place_map {node : String → Node} (hname : ∀ n, (node n).name = n) {names : List String}
    (hnodup : names.Nodup) (name : String) (grow : Option Node → Node) :
    place name grow (names.map node) =
      if name ∈ names then names.map fun n => if n = name then grow (some (node n)) else node n
      else names.map node ++ [grow none] := by
  induction names with
  | nil => rfl
  | cons first rest ih =>
    rw [List.nodup_cons] at hnodup
    rw [List.map_cons, place, hname]
    by_cases hfirst : first = name
    · -- The names behind it are others.
      subst hfirst
      have hrest : ∀ n ∈ rest, (if n = first then grow (some (node n)) else node n) = node n := by
        intro n hn
        rw [if_neg]
        rintro rfl
        exact hnodup.1 hn
      simp [List.map_congr_left hrest]
    · rw [if_neg hfirst, ih hnodup.2]
      by_cases hrest : name ∈ rest <;> simp [hrest, hfirst, Ne.symm hfirst]

section Adding

variable {above : List String} {places : List Place} {name : String}

/-- Placing leaves a trie as it is if the node of the name is left as it is. -/
theorem place_trie_of_eq {grow : Option Node → Node} (hmem : name ∈ firsts places)
    (hgrow : grow (some (nodeAt above places name)) = nodeAt above places name) :
    place name grow (trie above places) = trie above places := by
  rw [trie_eq, place_map (name_nodeAt above places) (nodup_firsts places), if_pos hmem]
  refine List.map_congr_left fun n _ => ?_
  split
  · next heq => rw [heq, hgrow]
  · rfl

/-- Placing adds a place to a trie if it makes the node of its first segment what it is
    with that place. -/
theorem place_trie {grow : Option Node → Node} {kind : Kind} {rest : List String}
    (hgrow : grow (if name ∈ firsts places then some (nodeAt above places name) else none) =
      nodeAt above (places ++ [⟨kind, name :: rest⟩]) name) :
    place name grow (trie above places) = trie above (places ++ [⟨kind, name :: rest⟩]) := by
  have hothers : ∀ n ∈ firsts places, n ≠ name →
      nodeAt above (places ++ [⟨kind, name :: rest⟩]) n = nodeAt above places n :=
    fun n _ hn => nodeAt_append_of_ne (Ne.symm hn) above places kind rest
  rw [trie_eq, trie_eq, place_map (name_nodeAt above places) (nodup_firsts places), firsts_append]
  by_cases hmem : name ∈ firsts places
  · rw [if_pos hmem] at hgrow
    rw [if_pos hmem, if_pos hmem]
    refine List.map_congr_left fun n hn => ?_
    split
    · next heq => rw [heq, hgrow]
    · next hne => rw [hothers n hn hne]
  · rw [if_neg hmem] at hgrow
    rw [if_neg hmem, if_neg hmem, List.map_append, List.map_singleton, hgrow]
    congr 1
    refine List.map_congr_left fun n hn => (hothers n hn ?_).symm
    rintro rfl
    exact hmem hn

/-- The path of a name below a folder, by segments. -/
theorem pathBelow_ofSegments (habove : "" ∉ above) (name : String) :
    pathBelow (Path.ofSegments above) name = Path.ofSegments (above ++ [name]) := by
  cases above with
  | nil => simp [pathBelow, Path.ofSegments]
  | cons first rest =>
    have hne : Path.ofSegments (first :: rest) ≠ "" := by
      rw [List.mem_cons, not_or] at habove
      cases rest with
      | nil => simpa [Path.ofSegments] using Ne.symm habove.1
      | cons => simp [Path.ofSegments, String.intercalate_cons_cons]
    rw [pathBelow, Path.ofSegments_append_singleton (List.cons_ne_nil first rest), if_neg]
    simpa using hne

/-! ### What is in the way -/

variable {kind kind' : Kind} {rest rest' : List String}

theorem blocks_cons :
    Place.Blocks ⟨kind', name :: rest'⟩ ⟨kind, name :: rest⟩ ↔
      Place.Blocks ⟨kind', rest'⟩ ⟨kind, rest⟩ := by
  cases kind <;> simp [Place.Blocks, Place.Needs, Kind.other]

theorem not_blocks_of_ne {first : String} (h : first ≠ name) :
    ¬ Place.Blocks ⟨kind', first :: rest'⟩ ⟨kind, name :: rest⟩ := by
  cases kind <;> simp [Place.Blocks, Place.Needs, Kind.other, h, Ne.symm h]

theorem nil_blocks_iff :
    Place.Blocks ⟨kind', []⟩ ⟨kind, name :: rest⟩ ↔ kind' = .file := by
  cases kind <;> simp [Place.Blocks, Place.Needs, Kind.other]

/-- A place that is not in the way of another one is not in its way below either. -/
theorem not_blocks_below (hfree : ∀ q ∈ places, ¬ q.Blocks ⟨kind, name :: rest⟩) :
    ∀ q ∈ below name places, ¬ q.Blocks ⟨kind, rest⟩ :=
  fun _ hq hblocks => hfree _ (mem_below.mp hq) (blocks_cons.mpr hblocks)

/-- The node of a place without anything in its way, when nothing is behind it. -/
theorem getD_leaf_eq_nodeAt
    (hfree : ∀ q ∈ places, ¬ q.Blocks ⟨kind, [name]⟩) :
    (if name ∈ firsts places then some (nodeAt above places name) else none).getD
        (leaf kind name (Path.ofSegments (above ++ [name]))) =
      nodeAt above (places ++ [⟨kind, [name]⟩]) name := by
  have hbelow : below name (places ++ [⟨kind, [name]⟩]) = below name places ++ [⟨kind, []⟩] := by
    rw [below_append, below_cons_self]
  by_cases hmem : name ∈ firsts places
  · -- The node is there, and it is of this kind.
    rw [if_pos hmem, Option.getD_some, nodeAt, nodeAt, hbelow, trie_append_nil]
    have hkind : ⟨.file, []⟩ ∈ below name places ++ [⟨kind, []⟩] ↔
        ⟨.file, []⟩ ∈ below name places := by
      rw [List.mem_append, List.mem_singleton]
      refine ⟨fun h => h.elim id ?_, .inl⟩
      intro heq
      cases heq
      obtain ⟨kind', rest', hplace⟩ := mem_firsts.mp hmem
      have hsame := hfree _ hplace
      rw [blocks_cons] at hsame
      cases rest' <;> cases kind' <;> simp [Place.Blocks, Place.Needs, Kind.other] at hsame
      exact mem_below.mpr hplace
    simp only [hkind]
  · rw [if_neg hmem, Option.getD_none, nodeAt, hbelow, below_eq_nil hmem, List.nil_append]
    have hempty : trie (above ++ [name]) [⟨kind, []⟩] = [] := by
      have hnil := trie_append_nil (above ++ [name]) [] kind
      rwa [trie_nil, List.nil_append] at hnil
    cases kind <;> simp [leaf, hempty]

/-- Without anything in its way, a place is added to the places of the trie. -/
theorem insert_trie {segments : List String} (habove : "" ∉ above) (hsegments : "" ∉ segments)
    (hne : segments ≠ []) (hfree : ∀ q ∈ places, ¬ q.Blocks ⟨kind, segments⟩) :
    insert kind (Path.ofSegments above) segments (trie above places) =
      trie above (places ++ [⟨kind, segments⟩]) := by
  induction segments generalizing above places with
  | nil => exact absurd rfl hne
  | cons name rest ih =>
    rw [List.mem_cons, not_or] at hsegments
    have hpath := pathBelow_ofSegments habove name
    cases rest with
    | nil =>
      rw [insert, hpath]
      exact place_trie (getD_leaf_eq_nodeAt hfree)
    | cons next rest =>
      rw [insert, hpath]
      refine place_trie ?_
      -- No file stands there, so the rest goes on below the name.
      have hfile : ⟨.file, []⟩ ∉ below name places := by
        intro hmem
        exact not_blocks_below hfree _ hmem (nil_blocks_iff.mpr rfl)
      have hnext : ⟨.file, []⟩ ∉ below name (places ++ [⟨kind, name :: next :: rest⟩]) := by
        rw [below_append, below_cons_self, List.mem_append]
        simpa using hfile
      have hname : "" ∉ above ++ [name] := by simpa [habove] using hsegments.1
      have hbelow := ih hname hsegments.2 (List.cons_ne_nil next rest) (not_blocks_below hfree)
      rw [nodeAt_of_folder hnext, below_append, below_cons_self, ← hbelow]
      by_cases hmem : name ∈ firsts places
      · rw [if_pos hmem, nodeAt_of_folder hfile]
      · rw [if_neg hmem, below_eq_nil hmem, trie_nil]

/-- With a place in its way, a place changes nothing in the trie. -/
theorem insert_of_blocks {segments : List String} (habove : "" ∉ above)
    (hsegments : "" ∉ segments) (hroot : ⟨.file, []⟩ ∉ places) {q : Place} (hq : q ∈ places)
    (hblocks : q.Blocks ⟨kind, segments⟩) :
    insert kind (Path.ofSegments above) segments (trie above places) = trie above places := by
  induction segments generalizing above places q with
  | nil => rfl
  | cons name rest ih =>
    rw [List.mem_cons, not_or] at hsegments
    have hpath := pathBelow_ofSegments habove name
    -- What is in the way begins with the same segment.
    obtain ⟨kind', segments'⟩ := q
    obtain ⟨rest', rfl⟩ : ∃ rest', segments' = name :: rest' := by
      cases segments' with
      | nil =>
        rw [nil_blocks_iff.mp hblocks] at hq
        exact absurd hq hroot
      | cons first rest' =>
        by_cases hfirst : first = name
        · exact ⟨rest', by rw [hfirst]⟩
        · exact absurd hblocks (not_blocks_of_ne hfirst)
    have hmem : name ∈ firsts places := mem_firsts.mpr ⟨kind', rest', hq⟩
    cases rest with
    | nil =>
      rw [insert]
      exact place_trie_of_eq hmem rfl
    | cons next rest =>
      rw [insert, hpath]
      refine place_trie_of_eq hmem ?_
      by_cases hfile : ⟨.file, []⟩ ∈ below name places
      · rw [nodeAt_of_file hfile]
      · have hname : "" ∉ above ++ [name] := by simpa [habove] using hsegments.1
        have hbelow := ih hname hsegments.2 hfile (mem_below.mpr hq) (blocks_cons.mp hblocks)
        rw [nodeAt_of_folder hfile]
        exact congrArg (Node.folder name _) hbelow

end Adding

/-! ## What stands in a trie -/

mutual

/-- A node and all nodes below it. -/
def nodesOf : Node → List Node
  | .file name path => [.file name path]
  | .folder name path children => .folder name path children :: nodes children

/-- All nodes of a forest, every node ahead of those below it. -/
def nodes : List Node → List Node
  | [] => []
  | node :: rest => nodesOf node ++ nodes rest

end

/-- The kind of a node. -/
def kindOf (node : Node) : Kind := if node.isFolder then .folder else .file

theorem nodesOf_eq (node : Node) : nodesOf node = node :: nodes node.children := by
  cases node <;> rfl

theorem nodes_eq_flatMap (forest : List Node) : nodes forest = forest.flatMap nodesOf := by
  induction forest with
  | nil => rfl
  | cons node rest ih => rw [nodes, ih, List.flatMap_cons]

theorem mem_nodes_trie {above : List String} {places : List Place} {node : Node} :
    node ∈ nodes (trie above places) ↔
      ∃ name ∈ firsts places, node = nodeAt above places name ∨
        node ∈ nodes (nodeAt above places name).children := by
  rw [nodes_eq_flatMap, trie_eq]
  simp [List.mem_flatMap, nodesOf_eq]

/-- No file is asked for where a folder is, nor a folder where a file is. -/
def Consistent (places : List Place) : Prop :=
  ∀ segments, segments ≠ [] → Needed places segments .file → ¬ Needed places segments .folder

section Standing

variable {above segments : List String} {places : List Place} {name : String} {kind : Kind}

theorem needed_below :
    Needed (below name places) segments kind ↔ Needed places (name :: segments) kind := by
  have hcons : ∀ p : Place, Place.Needs ⟨p.kind, name :: p.segments⟩ (name :: segments) kind ↔
      p.Needs segments kind := by
    intro p
    cases kind <;> simp [Place.Needs]
  constructor
  · rintro ⟨p, hp, hneeds⟩
    exact ⟨_, mem_below.mp hp, (hcons p).mpr hneeds⟩
  · rintro ⟨⟨kind', segments'⟩, hp, hneeds⟩
    -- The place begins with the name.
    obtain ⟨rest, rfl⟩ : ∃ rest, segments' = name :: rest := by
      cases kind with
      | file => exact ⟨segments, hneeds.2⟩
      | folder =>
        obtain ⟨rest, hrest⟩ := hneeds.1
        exact ⟨segments ++ rest, hrest.symm⟩
    exact ⟨⟨kind', rest⟩, mem_below.mpr hp, (hcons ⟨kind', rest⟩).mp hneeds⟩

theorem file_mem_below_iff : ⟨.file, []⟩ ∈ below name places ↔ Needed places [name] .file := by
  rw [← needed_below]
  constructor
  · intro hmem
    exact ⟨_, hmem, rfl, rfl⟩
  · rintro ⟨⟨kind', segments'⟩, hmem, hkind, hsegments⟩
    cases hkind
    cases hsegments
    exact hmem

theorem mem_firsts_of_needed (h : Needed places (name :: segments) kind) :
    name ∈ firsts places := by
  obtain ⟨p, hp, -⟩ := needed_below.mpr h
  exact mem_firsts.mpr ⟨p.kind, p.segments, mem_below.mp hp⟩

/-- On the way to a node there is a folder. -/
theorem needed_folder_of_cons (h : Needed places (name :: segments) kind)
    (hne : segments ≠ []) : Needed places [name] .folder := by
  obtain ⟨p, hp, hneeds⟩ := needed_below.mpr h
  refine ⟨_, mem_below.mp hp, by simp, fun heq => ?_⟩
  have hnil : p.segments = [] := (List.cons.inj heq).2
  -- A place without segments needs nothing below itself.
  cases kind with
  | file => exact absurd (hneeds.2.symm.trans hnil) hne
  | folder => exact absurd (List.prefix_nil.mp (hnil ▸ hneeds.1)) hne

/-- The node of a first segment is needed there. -/
theorem needed_kindOf_nodeAt (above : List String) (hmem : name ∈ firsts places) :
    Needed places [name] (kindOf (nodeAt above places name)) := by
  by_cases hfile : ⟨.file, []⟩ ∈ below name places
  · rw [nodeAt_of_file hfile]
    exact file_mem_below_iff.mp hfile
  · rw [nodeAt_of_folder hfile]
    obtain ⟨kind', rest, hplace⟩ := mem_firsts.mp hmem
    refine ⟨_, hplace, by simp, fun heq => ?_⟩
    have hrest : rest = [] := (List.cons.inj heq).2
    subst hrest
    cases kind' with
    | file => exact absurd (mem_below.mpr hplace) hfile
    | folder => rfl

theorem kindOf_nodeAt (hc : Consistent places) (above : List String)
    (h : Needed places [name] kind) : kindOf (nodeAt above places name) = kind := by
  have hnode := needed_kindOf_nodeAt above (mem_firsts_of_needed h)
  have hone := hc [name] (List.cons_ne_nil name [])
  cases hkind : kindOf (nodeAt above places name) with
  | file =>
    rw [hkind] at hnode
    cases kind with
    | file => rfl
    | folder => exact absurd h (hone hnode)
  | folder =>
    rw [hkind] at hnode
    cases kind with
    | file => exact absurd hnode (hone h)
    | folder => rfl

theorem path_nodeAt (above : List String) (places : List Place) (name : String) :
    (nodeAt above places name).path = Path.ofSegments (above ++ [name]) := by
  unfold nodeAt
  dsimp only
  split <;> rfl

theorem children_nodeAt (above : List String) (places : List Place) (name : String) :
    (nodeAt above places name).children = [] ∨
      (nodeAt above places name).children = trie (above ++ [name]) (below name places) := by
  unfold nodeAt
  dsimp only
  split
  · exact .inl rfl
  · exact .inr rfl

/-- Every node of a trie is needed where it stands, and below it is a trie. -/
theorem exists_needed_of_mem_nodes {node : Node} (h : node ∈ nodes (trie above places)) :
    ∃ segments, segments.getLast? = some node.name ∧
      Needed places segments (kindOf node) ∧ node.path = Path.ofSegments (above ++ segments) ∧
        ∃ places', node.children = trie (above ++ segments) places' := by
  induction above, places using trie.induct with
  | case1 above places ih =>
    obtain ⟨name, hmem, rfl | hbelow⟩ := mem_nodes_trie.mp h
    · refine ⟨[name], by simp, needed_kindOf_nodeAt above hmem, path_nodeAt above places name, ?_⟩
      rcases children_nodeAt above places name with hnil | htrie
      · exact ⟨[], by rw [hnil, trie_nil]⟩
      · exact ⟨_, htrie⟩
    · rcases children_nodeAt above places name with hnil | htrie
      · rw [hnil] at hbelow
        cases hbelow
      · rw [htrie] at hbelow
        obtain ⟨segments, hlast, hneeded, hpath, places', hchildren⟩ := ih name hmem hbelow
        rw [List.append_assoc, List.singleton_append] at hpath hchildren
        refine ⟨name :: segments, ?_, needed_below.mp hneeded, hpath, places', hchildren⟩
        rw [List.getLast?_cons, hlast]
        rfl

/-- Whatever is needed stands in the trie of consistent places. -/
theorem exists_node_of_needed (above : List String) (hc : Consistent places)
    (hne : segments ≠ []) (h : Needed places segments kind) :
    ∃ node ∈ nodes (trie above places), kindOf node = kind ∧
      segments.getLast? = some node.name ∧ node.path = Path.ofSegments (above ++ segments) := by
  induction segments generalizing above places with
  | nil => exact absurd rfl hne
  | cons name rest ih =>
    have hmem := mem_firsts_of_needed h
    by_cases hrest : rest = []
    · subst hrest
      refine ⟨nodeAt above places name, mem_nodes_trie.mpr ⟨name, hmem, .inl rfl⟩,
        kindOf_nodeAt hc above h, by simp, path_nodeAt above places name⟩
    · -- A file has nothing below it, so the name is that of a folder.
      have hfile : ⟨.file, []⟩ ∉ below name places := by
        rw [file_mem_below_iff]
        intro hfile
        exact hc [name] (List.cons_ne_nil name []) hfile (needed_folder_of_cons h hrest)
      have hbelow : Consistent (below name places) := by
        intro segments _
        rw [needed_below, needed_below]
        exact hc (name :: segments) (List.cons_ne_nil name segments)
      obtain ⟨node, hnode, hkind, hlast, hpath⟩ :=
        ih (above ++ [name]) hbelow hrest (needed_below.mpr h)
      refine ⟨node, mem_nodes_trie.mpr ⟨name, hmem, .inr ?_⟩, hkind, ?_, ?_⟩
      · rw [nodeAt_of_folder hfile]
        exact hnode
      · rw [List.getLast?_cons, hlast]
        rfl
      · rw [hpath, List.append_assoc, List.singleton_append]

/-! ### Paths tell nodes apart -/

/-- All segments can stand between slashes. -/
def Proper (places : List Place) : Prop := ∀ p ∈ places, ∀ s ∈ p.segments, Path.IsSegment s

theorem Proper.below (h : Proper places) (name : String) : Proper (below name places) :=
  fun _ hp s hs => h _ (mem_below.mp hp) s (List.mem_cons_of_mem name hs)

theorem Proper.of_needed (h : Proper places) (hneeded : Needed places segments kind) :
    ∀ s ∈ segments, Path.IsSegment s := by
  obtain ⟨p, hp, hneeds⟩ := hneeded
  exact fun s hs => h p hp s (hneeds.isPrefix.subset hs)

theorem Proper.of_mem_firsts (h : Proper places) (hmem : name ∈ firsts places) :
    Path.IsSegment name := by
  obtain ⟨kind', rest, hplace⟩ := mem_firsts.mp hmem
  exact h _ hplace name List.mem_cons_self

/-- Below the node of a first segment, paths go on behind that segment. -/
theorem exists_path_of_mem_children (h : Proper places) {node : Node}
    (hnode : node ∈ nodes (nodeAt above places name).children) :
    ∃ rest ≠ [], (∀ s ∈ rest, Path.IsSegment s) ∧
      node.path = Path.ofSegments (above ++ name :: rest) := by
  rcases children_nodeAt above places name with hnil | htrie
  · rw [hnil] at hnode
    cases hnode
  · rw [htrie] at hnode
    obtain ⟨rest, hlast, hneeded, hpath, -⟩ := exists_needed_of_mem_nodes hnode
    refine ⟨rest, ?_, (h.below name).of_needed hneeded, ?_⟩
    · rintro rfl
      cases hlast
    · rw [hpath, List.append_assoc, List.singleton_append]

/-- Nodes at and below a first segment have paths through it. -/
theorem exists_path_of_mem_nodesOf (h : Proper places) {node : Node}
    (hnode : node ∈ nodesOf (nodeAt above places name)) :
    ∃ rest, (∀ s ∈ rest, Path.IsSegment s) ∧
      node.path = Path.ofSegments (above ++ name :: rest) := by
  rw [nodesOf_eq, List.mem_cons] at hnode
  rcases hnode with rfl | hnode
  · exact ⟨[], by simp, path_nodeAt above places name⟩
  · obtain ⟨rest, -, hrest, hpath⟩ := exists_path_of_mem_children h hnode
    exact ⟨rest, hrest, hpath⟩

/-- Paths through the same folder agree in what is behind it. -/
theorem eq_of_ofSegments_append {rest rest' : List String} {name' : String}
    (habove : ∀ s ∈ above, Path.IsSegment s) (hname : Path.IsSegment name)
    (hname' : Path.IsSegment name') (hrest : ∀ s ∈ rest, Path.IsSegment s)
    (hrest' : ∀ s ∈ rest', Path.IsSegment s)
    (h : Path.ofSegments (above ++ name :: rest) = Path.ofSegments (above ++ name' :: rest')) :
    name = name' ∧ rest = rest' := by
  have hall : ∀ s ∈ above ++ name :: rest, Path.IsSegment s := by
    simpa [or_imp, forall_and] using ⟨habove, hname, hrest⟩
  have hall' : ∀ s ∈ above ++ name' :: rest', Path.IsSegment s := by
    simpa [or_imp, forall_and] using ⟨habove, hname', hrest'⟩
  exact List.cons.inj (List.append_cancel_left (Path.ofSegments_inj hall hall' h))

theorem nodup_paths_trie (habove : ∀ s ∈ above, Path.IsSegment s) (h : Proper places) :
    ((nodes (trie above places)).map Node.path).Nodup := by
  induction above, places using trie.induct with
  | case1 above places ih =>
    rw [nodes_eq_flatMap, trie_eq, List.flatMap_map, List.map_flatMap, List.nodup_flatMap]
    constructor
    · -- A node is not among those below it.
      intro name hmem
      have hname := h.of_mem_firsts hmem
      rw [nodesOf_eq, List.map_cons, List.nodup_cons]
      constructor
      · intro hpath
        obtain ⟨node, hnode, heq⟩ := List.mem_map.mp hpath
        obtain ⟨rest, hne, hrest, hpath⟩ := exists_path_of_mem_children h hnode
        rw [hpath, path_nodeAt] at heq
        exact hne (eq_of_ofSegments_append habove hname hname hrest (by simp) heq).2
      · rcases children_nodeAt above places name with hnil | htrie
        · rw [hnil]
          exact List.nodup_nil
        · rw [htrie]
          have hhere : ∀ s ∈ above ++ [name], Path.IsSegment s := by
            simpa [or_imp, forall_and] using ⟨habove, hname⟩
          exact ih name hmem hhere (h.below name)
    · -- Nor do nodes of different first segments share a path.
      refine (nodup_firsts places).imp_of_mem ?_
      intro name name' hmem hmem' hne
      refine List.disjoint_left.mpr fun path hpath hpath' => ?_
      obtain ⟨node, hnode, heq⟩ := List.mem_map.mp hpath
      obtain ⟨node', hnode', heq'⟩ := List.mem_map.mp hpath'
      obtain ⟨rest, hrest, hthrough⟩ := exists_path_of_mem_nodesOf h hnode
      obtain ⟨rest', hrest', hthrough'⟩ := exists_path_of_mem_nodesOf h hnode'
      have hsame := (hthrough.symm.trans heq).trans (heq'.symm.trans hthrough')
      exact hne (eq_of_ofSegments_append habove (h.of_mem_firsts hmem) (h.of_mem_firsts hmem')
        hrest hrest' hsame).1

/-! ### Siblings -/

theorem map_name_trie (above : List String) (places : List Place) :
    (trie above places).map Node.name = firsts places := by
  rw [trie_eq, List.map_map]
  simp [Function.comp_def]

theorem path_of_mem_trie {node : Node} (h : node ∈ trie above places) :
    node.path = Path.ofSegments (above ++ [node.name]) := by
  rw [trie_eq] at h
  obtain ⟨name, -, rfl⟩ := List.mem_map.mp h
  rw [path_nodeAt, name_nodeAt]

end Standing

end Tree

end LivePreview
