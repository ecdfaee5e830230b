/-
  LivePreview.Project.Path

  Paths of project files: texts with `/` between their segments.  Folders have
  no entry of their own; an empty one is kept by a marker, a file of the name
  `.folder` in it.
-/

import LivePreview.Text.Blank
import LivePreview.Text.Segments

namespace LivePreview.Path

/-- The name of the file that marks a folder. -/
def markerName : String := ".folder"

/-- The extensions of script files, in the order they are tried. -/
def scriptExtensions : List String := ["js", "jsx", "ts", "tsx"]

/-- The text without the slashes at its end. -/
def trimEndSlashes (s : List Char) : List Char := (s.reverse.dropWhile (· == '/')).reverse

/-- The last segment. -/
def name (path : String) : String :=
  match Text.splitLast '/' path.toList with
  | some (_, last) => String.ofList last
  | none => path

/-- What lies before the last slash; empty if there is none. -/
def parent (path : String) : String :=
  match Text.splitLast '/' path.toList with
  | some (folder, _) => String.ofList folder
  | none => ""

/-- The segments that are not empty. -/
def segments (path : String) : List String :=
  ((path.toList.splitOn '/').filter (!·.isEmpty)).map String.ofList

/-- The segments with a slash between each two. -/
def ofSegments (segments : List String) : String := "/".intercalate segments

/-- The path marks a folder. -/
def isMarker (path : String) : Bool := name path == markerName

/-- The marked folder, if the path is a marker inside a folder. -/
def markedFolder? (path : String) : Option String :=
  if isMarker path then
    match trimEndSlashes (parent path).toList with
    | [] => none
    | folder => some (String.ofList folder)
  else none

/-- The marker of a folder. -/
def marker (folder : String) : String := folder ++ "/" ++ markerName

/-- The last dot of the path has a script extension behind it and, before it,
    something that does not end in a slash. -/
def hasScriptExtension (path : String) : Bool :=
  match Text.splitLast '.' path.toList with
  | some (stem, extension) =>
    !stem.isEmpty && stem.getLast? != some '/' &&
      scriptExtensions.contains (String.ofList extension)
  | none => false

/-- The beginning shared by all paths in a folder. -/
def folderPrefix (folder : String) : String :=
  if folder.toList.getLast? == some '/' then folder else folder ++ "/"

/-- The path lies in the folder, at any depth. -/
def isWithin (folder path : String) : Bool :=
  (folderPrefix folder).toList.isPrefixOf path.toList

/-! ## Segments -/

/-- A text that can stand between slashes: not empty, and without a slash. -/
def IsSegment (s : String) : Prop := s ≠ "" ∧ '/' ∉ s.toList

theorem isSegment_of_mem_segments {path s : String} (h : s ∈ segments path) : IsSegment s := by
  obtain ⟨cs, hcs, rfl⟩ := List.mem_map.mp h
  obtain ⟨hsplit, hne⟩ := List.mem_filter.mp hcs
  refine ⟨?_, by simpa using Text.not_mem_of_mem_splitOn hsplit⟩
  intro hempty
  have hnil : cs = [] := by simpa using hempty
  simp [hnil] at hne

theorem toList_ofSegments (ss : List String) :
    (ofSegments ss).toList = ['/'].intercalate (ss.map String.toList) :=
  String.toList_intercalate

/-- Segments are found again in their path. -/
theorem segments_ofSegments {ss : List String} (h : ∀ s ∈ ss, IsSegment s) :
    segments (ofSegments ss) = ss := by
  by_cases hnil : ss = []
  · subst hnil
    rfl
  · have hslash : ∀ cs ∈ ss.map String.toList, '/' ∉ cs := by
      intro cs hcs
      obtain ⟨s, hs, rfl⟩ := List.mem_map.mp hcs
      exact (h s hs).2
    have hnonempty : (ss.map String.toList).filter (!·.isEmpty) = ss.map String.toList := by
      rw [List.filter_eq_self]
      intro cs hcs
      obtain ⟨s, hs, rfl⟩ := List.mem_map.mp hcs
      simpa using (h s hs).1
    rw [segments, toList_ofSegments, List.splitOn_intercalate '/' hslash (by simpa using hnil),
      hnonempty, List.map_map]
    simp [Function.comp_def]

theorem ofSegments_inj {ss ts : List String} (hs : ∀ s ∈ ss, IsSegment s)
    (ht : ∀ t ∈ ts, IsSegment t) (h : ofSegments ss = ofSegments ts) : ss = ts := by
  rw [← segments_ofSegments hs, h, segments_ofSegments ht]

@[simp] theorem ofSegments_singleton (s : String) : ofSegments [s] = s :=
  String.intercalate_singleton

theorem ofSegments_append {ss ts : List String} (hss : ss ≠ []) (hts : ts ≠ []) :
    ofSegments (ss ++ ts) = ofSegments ss ++ "/" ++ ofSegments ts :=
  String.intercalate_append_of_ne_nil hss hts

theorem ofSegments_append_singleton {ss : List String} (hne : ss ≠ []) (s : String) :
    ofSegments (ss ++ [s]) = ofSegments ss ++ "/" ++ s := by
  rw [ofSegments_append hne (List.cons_ne_nil s []), ofSegments_singleton]

/-- Slashes at the end add no segments. -/
theorem filter_splitOn_append_slashes (cs : List Char) {slashes : List Char}
    (h : ∀ c ∈ slashes, c = '/') :
    ((cs ++ slashes).splitOn '/').filter (!·.isEmpty) =
      (cs.splitOn '/').filter (!·.isEmpty) := by
  induction slashes generalizing cs with
  | nil => rw [List.append_nil]
  | cons c rest ih =>
    have hrest := ih [] fun d hd => h d (List.mem_cons_of_mem c hd)
    rw [h c List.mem_cons_self, List.splitOn_append_cons_self, List.filter_append]
    rw [List.nil_append] at hrest
    rw [hrest]
    simp

/-- What is taken away at the end is slashes. -/
theorem exists_trimEndSlashes (cs : List Char) :
    ∃ slashes, cs = trimEndSlashes cs ++ slashes ∧ ∀ c ∈ slashes, c = '/' := by
  refine ⟨(cs.reverse.takeWhile (· == '/')).reverse, ?_, fun c hc => ?_⟩
  · rw [trimEndSlashes, ← List.reverse_append, List.takeWhile_append_dropWhile,
      List.reverse_reverse]
  · simpa using List.all_eq_true.mp List.all_takeWhile c (List.mem_reverse.mp hc)

theorem trimEndSlashes_isPrefix (cs : List Char) : trimEndSlashes cs <+: cs := by
  obtain ⟨slashes, hcs, -⟩ := exists_trimEndSlashes cs
  exact ⟨slashes, hcs.symm⟩

theorem getLast?_trimEndSlashes (cs : List Char) : (trimEndSlashes cs).getLast? ≠ some '/' := by
  rw [trimEndSlashes, List.getLast?_reverse]
  intro hfirst
  have hstop := List.head?_dropWhile_not (· == '/') cs.reverse
  rw [hfirst] at hstop
  cases hstop

theorem trimEndSlashes_eq_self {cs : List Char} (h : cs.getLast? ≠ some '/') :
    trimEndSlashes cs = cs := by
  rw [← List.head?_reverse] at h
  rw [trimEndSlashes]
  cases hrev : cs.reverse with
  | nil => simpa using hrev.symm
  | cons c rest =>
    rw [hrev, List.head?_cons, ne_eq, Option.some_inj] at h
    rw [List.dropWhile_cons_of_neg (by simpa using h), ← hrev, List.reverse_reverse]

theorem segments_trimEndSlashes (cs : List Char) :
    segments (String.ofList (trimEndSlashes cs)) = segments (String.ofList cs) := by
  obtain ⟨slashes, hcs, hslashes⟩ := exists_trimEndSlashes cs
  have hsplit := filter_splitOn_append_slashes (trimEndSlashes cs) hslashes
  rw [← hcs] at hsplit
  simp only [segments, String.toList_ofList, hsplit]

/-- A marker has the segments of its folder and its name; one that marks no folder
    has its name only. -/
theorem segments_of_isMarker {path : String} (h : isMarker path = true) :
    segments path = ((markedFolder? path).map segments).getD [] ++ [markerName] := by
  have hname : name path = markerName := by simpa [isMarker] using h
  simp only [markedFolder?, h, if_true]
  cases hsplit : Text.splitLast '/' path.toList with
  | none =>
    have hpath : path = markerName := by simpa [name, hsplit] using hname
    subst hpath
    rfl
  | some cut =>
    obtain ⟨folder, last⟩ := cut
    have hlast : last = markerName.toList := by
      simp only [name, hsplit] at hname
      rw [← hname, String.toList_ofList]
    have hparent : parent path = String.ofList folder := by simp [parent, hsplit]
    have hpath := (Text.splitLast_eq_some_iff.mp hsplit).1
    have hsegments : segments path = segments (String.ofList folder) ++ [markerName] := by
      rw [segments, hpath, List.splitOn_append_cons_self, hlast, List.filter_append,
        List.map_append]
      simp only [segments, String.toList_ofList]
      rfl
    rw [hsegments, hparent, String.toList_ofList, ← segments_trimEndSlashes folder]
    cases trimEndSlashes folder <;> rfl

/-! ## Names -/

/-- A path is cut at the slash before a name. -/
theorem splitLast_append_slash {s : String} (h : '/' ∉ s.toList) (folder : String) :
    Text.splitLast '/' (folder ++ "/" ++ s).toList = some (folder.toList, s.toList) := by
  rw [← Text.splitLast_append h folder.toList]
  simp

theorem name_of_not_mem {s : String} (h : '/' ∉ s.toList) : name s = s := by
  rw [name, Text.splitLast_eq_none_iff.mpr h]

theorem name_append_slash {s : String} (h : '/' ∉ s.toList) (folder : String) :
    name (folder ++ "/" ++ s) = s := by
  rw [name, splitLast_append_slash h]
  exact String.ofList_toList

/-- The name is what stands behind the last slash, or the path itself if there is none. -/
theorem name_cases (path : String) : '/' ∉ (name path).toList ∧
    (path = name path ∨ ∃ folder, path = folder ++ "/" ++ name path) := by
  cases hsplit : Text.splitLast '/' path.toList with
  | none =>
    have hslash := Text.splitLast_eq_none_iff.mp hsplit
    rw [name_of_not_mem hslash]
    exact ⟨hslash, .inl rfl⟩
  | some cut =>
    obtain ⟨folder, last⟩ := cut
    obtain ⟨hpath, hlast⟩ := Text.splitLast_eq_some_iff.mp hsplit
    have hname : name path = String.ofList last := by rw [name, hsplit]
    refine ⟨by rwa [hname, String.toList_ofList], .inr ⟨String.ofList folder, ?_⟩⟩
    rw [hname, ← String.toList_inj, hpath]
    simp

/-- What is added to a path without a slash in it is added to its name. -/
theorem name_append {t : String} (h : '/' ∉ t.toList) (s : String) :
    name (s ++ t) = name s ++ t := by
  obtain ⟨hname, hpath⟩ := name_cases s
  have hboth : '/' ∉ (name s ++ t).toList := by
    rw [String.toList_append, List.mem_append, not_or]
    exact ⟨hname, h⟩
  rcases hpath with hpath | ⟨folder, hpath⟩
  · rw [← hpath] at hboth ⊢
    exact name_of_not_mem hboth
  · have hcut : s ++ t = folder ++ "/" ++ (name s ++ t) := by
      rw [← String.append_assoc, ← hpath]
    rw [hcut, name_append_slash hboth]

theorem getLast?_of_name_eq_empty {path : String} (h : name path = "") :
    path = "" ∨ path.toList.getLast? = some '/' := by
  rcases (name_cases path).2 with hpath | ⟨folder, hpath⟩
  · exact .inl (hpath.trans h)
  · rw [hpath, h]
    exact .inr (by simp)

/-! ## Folders -/

theorem isWithin_iff {folder path : String} :
    isWithin folder path = true ↔ (folderPrefix folder).toList <+: path.toList :=
  List.isPrefixOf_iff_prefix

theorem folderPrefix_ne_empty (folder : String) : folderPrefix folder ≠ "" := by
  unfold folderPrefix
  split
  · rintro rfl
    simp_all
  · intro h
    have := congrArg String.toList h
    simp at this

/-- The empty path lies in no folder. -/
theorem isWithin_empty (folder : String) : isWithin folder "" = false := by
  rw [Bool.eq_false_iff, ne_eq, isWithin_iff]
  intro h
  refine folderPrefix_ne_empty folder (String.toList_inj.mp ?_)
  simpa using h

end LivePreview.Path
