/-
  LivePreview.Proofs.JoinedPath

  Paths that go on behind a root with names that lead down.

  A path joined from a root and such names has the names of the root in front
  (`Disk.names_joinPath`).  Its parent is the path with one name less
  (`Disk.parent?_joinPath_append`), and the parent of the first name is the root without
  the slashes and single dots at its end (`Disk.parent?_joinPath_singleton`).
-/

import LivePreview.Disk.Access
import LivePreview.Project.Path
import Mathlib.Data.List.Induction

namespace LivePreview

namespace Path

/-- A segment that leads one folder down. -/
structure IsStep (s : String) : Prop where
  isSegment : IsSegment s
  ne_here : s ≠ "."
  ne_up : s ≠ ".."

instance (s : String) : Decidable (IsSegment s) := inferInstanceAs (Decidable (_ ∧ _))

instance (s : String) : Decidable (IsStep s) :=
  decidable_of_iff (IsSegment s ∧ s ≠ "." ∧ s ≠ "..")
    ⟨fun h => ⟨h.1, h.2.1, h.2.2⟩, fun h => ⟨h.isSegment, h.ne_here, h.ne_up⟩⟩

end Path

namespace Disk

open LivePreview.Path

variable {root path s : String} {ss : List String}

/-! ## Names of a joined path -/

theorem names_ofSegments (h : ∀ s ∈ ss, IsStep s) : names (ofSegments ss) = ss :=
  segments_ofSegments fun s hs => (h s hs).isSegment

theorem exists_cons_of_isStep (h : IsStep s) : ∃ c cs, s.toList = c :: cs ∧ c ≠ '/' := by
  obtain ⟨c, cs, hs⟩ := List.exists_cons_of_ne_nil (l := s.toList) (by simpa using h.isSegment.1)
  refine ⟨c, cs, hs, ?_⟩
  rintro rfl
  exact h.isSegment.2 (hs ▸ List.mem_cons_self)

theorem toList_ofSegments_append {ts : List String} (hss : ss ≠ []) (hts : ts ≠ []) :
    (ofSegments (ss ++ ts)).toList = (ofSegments ss).toList ++ '/' :: (ofSegments ts).toList := by
  rw [ofSegments_append hss hts]
  simp

theorem toList_ofSegments_concat (hne : ss ≠ []) (s : String) :
    (ofSegments (ss ++ [s])).toList = (ofSegments ss).toList ++ '/' :: s.toList := by
  rw [toList_ofSegments_append hne (List.cons_ne_nil s []), ofSegments_singleton]

theorem toList_ofSegments_cons (s : String) (hne : ss ≠ []) :
    (ofSegments (s :: ss)).toList = s.toList ++ '/' :: (ofSegments ss).toList := by
  rw [← List.singleton_append, toList_ofSegments_append (List.cons_ne_nil s []) hne,
    ofSegments_singleton]

/-- Steps are a relative path. -/
theorem isAbsolute_ofSegments (h : ∀ s ∈ ss, IsStep s) : isAbsolute (ofSegments ss) = false := by
  cases ss with
  | nil => rfl
  | cons s rest =>
    obtain ⟨c, cs, hs, hc⟩ := exists_cons_of_isStep (h s List.mem_cons_self)
    by_cases hrest : rest = []
    · subst hrest
      simp [isAbsolute, ofSegments_singleton, hs, hc]
    · simp [isAbsolute, toList_ofSegments_cons s hrest, hs, hc]

theorem toList_ofSegments_ne_nil (h : ∀ s ∈ ss, IsStep s) (hne : ss ≠ []) :
    (ofSegments ss).toList ≠ [] := by
  cases ss with
  | nil => exact absurd rfl hne
  | cons s rest =>
    obtain ⟨c, cs, hs, -⟩ := exists_cons_of_isStep (h s List.mem_cons_self)
    by_cases hrest : rest = []
    · simp [hrest, ofSegments_singleton, hs]
    · simp [toList_ofSegments_cons s hrest]

theorem getLast?_ne_of_isStep (h : IsStep s) : s.toList.getLast? ≠ some '/' := by
  intro hlast
  exact h.isSegment.2 (List.mem_of_getLast? hlast)

/-- Behind steps there is no slash. -/
theorem endsInSlash_ofSegments (h : ∀ s ∈ ss, IsStep s) : endsInSlash (ofSegments ss) = false := by
  rcases List.eq_nil_or_concat ss with rfl | ⟨before, s, rfl⟩
  · rfl
  · have hs : IsStep s := h s (by simp)
    have hlast := getLast?_ne_of_isStep hs
    obtain ⟨c, cs, hcs, -⟩ := exists_cons_of_isStep hs
    by_cases hbefore : before = []
    · subst hbefore
      simpa [endsInSlash, ofSegments_singleton] using hlast
    · rw [hcs] at hlast
      simpa [endsInSlash, toList_ofSegments_concat hbefore, hcs] using hlast

/-- A joined path is the root, a slash unless there is one already, and what goes on. -/
theorem joinPath_eq (hroot : root ≠ "") (hpath : isAbsolute path = false) :
    joinPath root path = if endsInSlash root then root ++ path else root ++ "/" ++ path := by
  simp [joinPath, hpath, hroot]

theorem exists_of_endsInSlash (h : endsInSlash root = true) :
    ∃ before, root.toList = before ++ ['/'] := by
  obtain ⟨before, hbefore⟩ := List.getLast?_eq_some_iff.mp (by simpa [endsInSlash] using h)
  exact ⟨before, hbefore⟩

/-- Between the root and what goes on, there is a slash. -/
theorem exists_toList_joinPath (hroot : root ≠ "") (hpath : isAbsolute path = false) :
    ∃ before, (joinPath root path).toList = before ++ '/' :: path.toList ∧
      (root.toList = before ∨ root.toList = before ++ ['/']) := by
  rw [joinPath_eq hroot hpath]
  split
  · next hslash =>
    obtain ⟨before, hbefore⟩ := exists_of_endsInSlash hslash
    exact ⟨before, by simp [hbefore], .inr hbefore⟩
  · exact ⟨root.toList, by simp, .inl rfl⟩

theorem names_joinPath (hroot : root ≠ "") (hpath : isAbsolute path = false) :
    names (joinPath root path) = names root ++ names path := by
  obtain ⟨before, hjoined, hbefore⟩ := exists_toList_joinPath hroot hpath
  have hnames : names root = ((before.splitOn '/').filter (!·.isEmpty)).map String.ofList := by
    rcases hbefore with h | h
    · rw [names, h]
    · rw [names, h, List.splitOn_append_cons_self]
      simp
  rw [hnames, names, hjoined, List.splitOn_append_cons_self, List.filter_append, List.map_append]
  rfl

theorem isAbsolute_joinPath (hroot : root ≠ "") (hpath : isAbsolute path = false) :
    isAbsolute (joinPath root path) = isAbsolute root := by
  obtain ⟨c, cs, hcs⟩ := List.exists_cons_of_ne_nil (l := root.toList) (by simpa using hroot)
  rw [joinPath_eq hroot hpath]
  split <;> simp [isAbsolute, hcs]

/-- Behind steps, a joined path is read to its end like any other. -/
theorem namesToEnd_joinPath (hroot : root ≠ "") (h : ∀ s ∈ ss, IsStep s) (hne : ss ≠ []) :
    namesToEnd (joinPath root (ofSegments ss)) = names root ++ ss := by
  have hpath := isAbsolute_ofSegments h
  have hslash : endsInSlash (joinPath root (ofSegments ss)) = false := by
    obtain ⟨before, hjoined, -⟩ := exists_toList_joinPath hroot hpath
    obtain ⟨c, cs, hcs⟩ := List.exists_cons_of_ne_nil (toList_ofSegments_ne_nil h hne)
    have hend := endsInSlash_ofSegments h
    rw [endsInSlash, hcs] at hend
    simpa [endsInSlash, hjoined, hcs] using hend
  rw [namesToEnd, hslash, names_joinPath hroot hpath, names_ofSegments h]
  rfl

/-! ## The end of a path -/

/-- The path without slashes and single dots at its end. -/
def trimEnd (path : String) : String := String.ofList (trimReversed path.toList.reverse).reverse

theorem trimReversed_ne_nil {cs : List Char} (h : cs ≠ []) : trimReversed cs ≠ [] := by
  fun_induction trimReversed cs with
  | case1 | case3 => simp
  | case2 rest hrest ih => exact ih (by rintro rfl; exact hrest rfl)
  | case4 rest _ ih => exact ih (List.cons_ne_nil '/' rest)
  | case5 => exact h

/-- What is trimmed are slashes and single dots. -/
theorem exists_trimReversed (cs : List Char) :
    ∃ idle, cs = idle ++ trimReversed cs ∧ ∃ n,
      (cs.reverse.splitOn '/').filter (!·.isEmpty) =
        ((trimReversed cs).reverse.splitOn '/').filter (!·.isEmpty) ++
          List.replicate n ['.'] := by
  -- A slash adds no segment; each dot that goes was a segment of its own.
  fun_induction trimReversed cs with
  | case1 => exact ⟨[], rfl, 0, by simp⟩
  | case2 rest hrest ih =>
    obtain ⟨idle, hidle, n, hn⟩ := ih
    refine ⟨'/' :: idle, congrArg _ hidle, n, ?_⟩
    rw [List.reverse_cons, List.splitOn_append_cons_self, List.filter_append, hn]
    simp
  | case3 => exact ⟨['.'], rfl, 1, rfl⟩
  | case4 rest hrest ih =>
    obtain ⟨idle, hidle, n, hn⟩ := ih
    refine ⟨'.' :: idle, congrArg _ hidle, n + 1, ?_⟩
    have hsplit : ('.' :: '/' :: rest).reverse.splitOn '/' =
        rest.reverse.splitOn '/' ++ [['.']] := by
      have hdot : ['.'].splitOn '/' = [['.']] := List.splitOn_eq_singleton (by decide)
      simp [List.splitOn_append_cons_self, hdot]
    have hrest : (('/' :: rest).reverse.splitOn '/').filter (!·.isEmpty) =
        (rest.reverse.splitOn '/').filter (!·.isEmpty) := by
      rw [List.reverse_cons, List.splitOn_append_cons_self, List.filter_append]
      simp
    rw [hsplit, List.filter_append, ← hrest, hn, List.replicate_succ', List.append_assoc]
    rfl
  | case5 => exact ⟨[], rfl, 0, by simp⟩

/-- Trimming takes nothing away that a walk would notice. -/
theorem names_trimEnd (path : String) :
    ∃ n, names path = names (trimEnd path) ++ List.replicate n "." := by
  obtain ⟨-, -, n, hn⟩ := exists_trimReversed path.toList.reverse
  refine ⟨n, ?_⟩
  rw [List.reverse_reverse] at hn
  rw [names, hn, List.map_append, List.map_replicate, names, trimEnd, String.toList_ofList]

theorem toList_trimEnd_isPrefix (path : String) : (trimEnd path).toList <+: path.toList := by
  obtain ⟨idle, hidle, -⟩ := exists_trimReversed path.toList.reverse
  refine ⟨idle.reverse, ?_⟩
  rw [trimEnd, String.toList_ofList, ← List.reverse_append, ← hidle, List.reverse_reverse]

theorem toList_trimEnd_ne_nil (h : path ≠ "") : (trimEnd path).toList ≠ [] := by
  have hne : trimReversed path.toList.reverse ≠ [] := trimReversed_ne_nil (by simpa using h)
  simpa [trimEnd] using hne

theorem isAbsolute_trimEnd (h : path ≠ "") : isAbsolute (trimEnd path) = isAbsolute path := by
  obtain ⟨c, cs, hcs⟩ := List.exists_cons_of_ne_nil (toList_trimEnd_ne_nil h)
  obtain ⟨idle, hidle⟩ := toList_trimEnd_isPrefix path
  rw [isAbsolute, isAbsolute, ← hidle, hcs]
  rfl

theorem trimReversed_eq_self {cs : List Char} (hslash : ∀ rest, cs ≠ '/' :: rest)
    (hdot : ∀ rest, cs ≠ '.' :: '/' :: rest) : trimReversed cs = cs := by
  unfold trimReversed
  split
  · rfl
  · next rest _ => exact absurd rfl (hslash rest)
  · exact absurd rfl (hdot [])
  · next rest _ => exact absurd rfl (hdot rest)
  · rfl

theorem trimReversed_slash {cs : List Char} (h : cs ≠ []) :
    trimReversed ('/' :: cs) = trimReversed cs := by
  rw [trimReversed]
  exact h

/-- Nothing is trimmed from a step. -/
theorem trimReversed_step (h : IsStep s) (before : List Char) :
    trimReversed (s.toList.reverse ++ before) = s.toList.reverse ++ before := by
  have hslash : '/' ∉ s.toList.reverse := by simpa using h.isSegment.2
  have hdot : s.toList.reverse ≠ ['.'] := by
    intro hrev
    refine h.ne_here (String.toList_inj.mp ?_)
    rw [← List.reverse_reverse s.toList, hrev]
    rfl
  obtain ⟨c, cs, hcs⟩ := List.exists_cons_of_ne_nil (l := s.toList.reverse)
    (by simpa using h.isSegment.1)
  rw [hcs] at hslash hdot ⊢
  rw [List.mem_cons, not_or] at hslash
  refine trimReversed_eq_self (fun rest heq => ?_) fun rest heq => ?_
  · exact hslash.1 (List.cons.inj heq).1.symm
  · obtain ⟨rfl, hrest⟩ := List.cons.inj heq
    cases cs with
    | nil => exact hdot rfl
    | cons d ds =>
      obtain ⟨rfl, -⟩ := List.cons.inj hrest
      exact hslash.2 List.mem_cons_self

/-! ## Parents -/

/-- The parent of what stands behind a slash ends before that slash. -/
theorem parent?_of_toList {before : List Char} (hs : IsStep s)
    (h : path.toList = before ++ '/' :: s.toList) :
    parent? path = some (String.ofList (trimReversed ('/' :: before.reverse)).reverse) := by
  have hrev : path.toList.reverse = s.toList.reverse ++ '/' :: before.reverse := by
    rw [h, List.reverse_append, List.reverse_cons, List.append_assoc]
    rfl
  -- Backwards the step comes first, and the search for a slash passes all of it.
  have hdrop : (s.toList.reverse ++ '/' :: before.reverse).dropWhile (· != '/') =
      '/' :: before.reverse := by
    rw [List.dropWhile_append_of_pos]
    · simp
    · intro c hc
      have hslash := hs.isSegment.2
      simp only [bne_iff_ne, ne_eq]
      rintro rfl
      exact hslash (List.mem_reverse.mp hc)
  have hlong : ∃ c d cs, s.toList.reverse ++ '/' :: before.reverse = c :: d :: cs := by
    obtain ⟨c, cs, hcs⟩ := List.exists_cons_of_ne_nil (l := s.toList.reverse)
      (by simpa using hs.isSegment.1)
    rw [hcs]
    cases cs with
    | nil => exact ⟨c, _, _, rfl⟩
    | cons d ds => exact ⟨c, d, _, rfl⟩
  obtain ⟨c, d, cs, hcs⟩ := hlong
  rw [hcs] at hdrop
  rw [parent?, hrev, trimReversed_step hs, hcs]
  split
  · next hnil => cases hnil
  · next hslash => cases hslash
  · rw [hdrop]

/-- The parent of one step behind the root is the root. -/
theorem parent?_joinPath_singleton (hroot : root ≠ "") (hs : IsStep s) :
    parent? (joinPath root (ofSegments [s])) = some (trimEnd root) := by
  have hpath := isAbsolute_ofSegments (List.forall_mem_singleton.mpr hs)
  rw [ofSegments_singleton] at hpath ⊢
  obtain ⟨before, hjoined, hbefore⟩ := exists_toList_joinPath hroot hpath
  rw [parent?_of_toList hs hjoined, trimEnd]
  rcases hbefore with h | h
  · -- The slash between the two is not part of the root.
    have hne : before.reverse ≠ [] := by simpa [← h] using hroot
    rw [h, trimReversed_slash hne]
  · rw [h, List.reverse_append]
    rfl

/-- A path joined to names that lead down ends in the last of them. -/
theorem exists_toList_joinPath_step (hroot : root ≠ "") (hss : ∀ t ∈ ss, IsStep t)
    (hne : ss ≠ []) : ∃ before t, IsStep t ∧
      (joinPath root (ofSegments ss)).toList = before ++ t.toList := by
  obtain ⟨front, hfront, -⟩ := exists_toList_joinPath hroot (isAbsolute_ofSegments hss)
  obtain ⟨init, t, hlast⟩ := (List.eq_nil_or_concat ss).resolve_left hne
  rw [List.concat_eq_append] at hlast
  subst hlast
  have ht : IsStep t := hss t (by simp)
  by_cases hinit : init = []
  · subst hinit
    refine ⟨front ++ ['/'], t, ht, ?_⟩
    rw [hfront, List.nil_append, ofSegments_singleton, List.append_assoc]
    rfl
  · exact ⟨front ++ '/' :: ((ofSegments init).toList ++ ['/']), t, ht, by
      simp [hfront, toList_ofSegments_concat hinit]⟩

/-- The parent of further steps is the path with one step less. -/
theorem parent?_joinPath_append (hroot : root ≠ "") (h : ∀ t ∈ ss ++ [s], IsStep t)
    (hne : ss ≠ []) : parent? (joinPath root (ofSegments (ss ++ [s]))) =
      some (joinPath root (ofSegments ss)) := by
  obtain ⟨hss, hs⟩ := List.forall_mem_append.mp h
  rw [List.forall_mem_singleton] at hs
  have happend : (joinPath root (ofSegments (ss ++ [s]))).toList =
      (joinPath root (ofSegments ss)).toList ++ '/' :: s.toList := by
    rw [joinPath_eq hroot (isAbsolute_ofSegments h), joinPath_eq hroot (isAbsolute_ofSegments hss)]
    split <;> simp [toList_ofSegments_concat hne]
  -- The path ends in a step, so nothing is trimmed from it.
  obtain ⟨before, t, ht, hjoined⟩ := exists_toList_joinPath_step hroot hss hne
  have hrev : (joinPath root (ofSegments ss)).toList.reverse =
      t.toList.reverse ++ before.reverse := by
    rw [hjoined, List.reverse_append]
  have hlong : t.toList.reverse ++ before.reverse ≠ [] := by
    simp [ht.isSegment.1]
  rw [parent?_of_toList hs happend, hrev, trimReversed_slash hlong, trimReversed_step ht, ← hrev,
    List.reverse_reverse, String.ofList_toList]

/-- The path of the folder that some names lead down to from the root. -/
def pathDown (root : String) (ss : List String) : String :=
  if ss = [] then trimEnd root else joinPath root (ofSegments ss)

theorem pathDown_ne_empty (hroot : root ≠ "") (ss : List String) : pathDown root ss ≠ "" := by
  unfold pathDown
  split
  · intro hempty
    exact toList_trimEnd_ne_nil hroot (by rw [hempty]; rfl)
  · unfold joinPath
    split
    · next habsolute =>
      rintro hempty
      rw [hempty] at habsolute
      cases habsolute
    · split <;> simp [hroot]

theorem parent?_joinPath (hroot : root ≠ "") (h : ∀ t ∈ ss ++ [s], IsStep t) :
    parent? (joinPath root (ofSegments (ss ++ [s]))) = some (pathDown root ss) := by
  unfold pathDown
  split
  · next hnil =>
    subst hnil
    exact parent?_joinPath_singleton hroot (h s (by simp))
  · next hne => exact parent?_joinPath_append hroot h hne

/-- Names further down make a path longer. -/
theorem toList_joinPath_isPrefix {ts : List String} (hroot : root ≠ "") (h : ∀ t ∈ ts, IsStep t)
    (hpre : ss <+: ts) (hne : ss ≠ []) :
    (joinPath root (ofSegments ss)).toList <+: (joinPath root (ofSegments ts)).toList := by
  have hss : ∀ t ∈ ss, IsStep t := fun t ht => h t (hpre.subset ht)
  obtain ⟨rest, rfl⟩ := hpre
  by_cases hrest : rest = []
  · simp [hrest]
  · rw [joinPath_eq hroot (isAbsolute_ofSegments h), joinPath_eq hroot (isAbsolute_ofSegments hss)]
    split <;> simp [toList_ofSegments_append hne hrest]

theorem toList_pathDown_isPrefix (hroot : root ≠ "") (h : ∀ t ∈ ss ++ [s], IsStep t) :
    (pathDown root ss).toList <+: (joinPath root (ofSegments (ss ++ [s]))).toList := by
  unfold pathDown
  split
  · refine (toList_trimEnd_isPrefix root).trans ?_
    rw [joinPath_eq hroot (isAbsolute_ofSegments h)]
    split <;> simp
  · next hne => exact toList_joinPath_isPrefix hroot h (List.prefix_append ss [s]) hne

/-! ## Ancestors -/

/-- What is left begins with a slash only if it is nothing else. -/
theorem trimReversed_eq_slash {cs rest : List Char} (h : trimReversed cs = '/' :: rest) :
    rest = [] := by
  fun_induction trimReversed cs with
  | case1 | case3 =>
    cases h
    rfl
  | case2 _ _ ih => exact ih h
  | case4 _ _ ih => exact ih h
  | case5 cs hslash hslashes =>
    subst h
    cases rest with
    | nil => rfl
    | cons c cs => exact absurd rfl (hslashes (c :: cs))

theorem length_trimReversed_le (cs : List Char) : (trimReversed cs).length ≤ cs.length := by
  obtain ⟨idle, hidle, -⟩ := exists_trimReversed cs
  have hlength := congrArg List.length hidle
  rw [List.length_append] at hlength
  omega

/-- Parents are shorter. -/
theorem length_parent?_lt {up : String} (h : parent? path = some up) :
    up.toList.length < path.toList.length := by
  have hle := length_trimReversed_le path.toList.reverse
  rw [List.length_reverse] at hle
  unfold parent? at h
  split at h
  · cases h
  · cases h
  · next hnil hslash =>
    rw [← Option.some.inj h, String.toList_ofList, List.length_reverse]
    have hle' := length_trimReversed_le ((trimReversed path.toList.reverse).dropWhile (· != '/'))
    cases htrim : trimReversed path.toList.reverse with
    | nil => exact absurd htrim hnil
    | cons c cs =>
      rw [htrim] at hle hle'
      -- What is trimmed ends in no slash, so the last character goes with the last segment.
      have hc : c ≠ '/' := by
        rintro rfl
        exact hslash (by rw [htrim, trimReversed_eq_slash htrim])
      rw [List.dropWhile_cons_of_pos (by simpa using hc)] at hle' ⊢
      have hdrop := (List.dropWhile_suffix (· != '/') (l := cs)).length_le
      simp only [List.length_cons] at hle
      omega

theorem ancestorsWithin_empty (n : Nat) : ancestorsWithin n "" = [] := by
  cases n with
  | zero => rfl
  | succ n => simp [ancestorsWithin, parent?, trimReversed]

/-- With enough steps, all parents are reached. -/
theorem ancestorsWithin_eq {n : Nat} (h : path.toList.length ≤ n) :
    ancestorsWithin n path = ancestors path := by
  unfold ancestors
  -- Both go to the same parent, and it is shorter than what is left of either.
  have hagree : ∀ m n, path.toList.length ≤ m → path.toList.length ≤ n →
      ancestorsWithin m path = ancestorsWithin n path := by
    intro m
    induction m generalizing path with
    | zero =>
      intro n hm _
      have hpath : path = "" := by simpa using List.eq_nil_of_length_eq_zero (Nat.le_zero.mp hm)
      rw [hpath, ancestorsWithin_empty, ancestorsWithin_empty]
    | succ m ih =>
      intro n hm hn
      cases n with
      | zero =>
        have hpath : path = "" := by simpa using List.eq_nil_of_length_eq_zero (Nat.le_zero.mp hn)
        rw [hpath, ancestorsWithin_empty, ancestorsWithin_empty]
      | succ n =>
        rw [ancestorsWithin, ancestorsWithin]
        cases hup : parent? path with
        | none => rfl
        | some up =>
          have hlt := length_parent?_lt hup
          exact congrArg _ (ih (by omega) n (by omega) (by omega))
  exact hagree n _ h (Nat.le_refl _)

theorem ancestors_of_parent?_eq_none (h : parent? path = none) : ancestors path = [] := by
  rw [ancestors]
  cases path.toList.length with
  | zero => rfl
  | succ n => rw [ancestorsWithin, h]

/-- The path, and then the ancestors of its parent. -/
theorem ancestors_of_parent? {up : String} (h : parent? path = some up) :
    ancestors path = path :: ancestors up := by
  have hlt := length_parent?_lt h
  obtain ⟨n, hn⟩ : ∃ n, path.toList.length = n + 1 := ⟨path.toList.length - 1, by omega⟩
  rw [ancestors, hn, ancestorsWithin, h]
  exact congrArg _ (ancestorsWithin_eq (by omega))

end Disk

end LivePreview
