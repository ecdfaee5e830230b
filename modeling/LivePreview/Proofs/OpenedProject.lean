/-
  LivePreview.Proofs.OpenedProject

  The projects that work begins with: without files, made of files, the starter project,
  or read from a stored text.

  In all of them every file has the path of its key (`Project.Opened.keyed`).  Other projects
  may have files with other paths: they are read as they are stored, without a repair.
-/

import LivePreview.Proofs.StoredProject

namespace LivePreview

/-! ## Tables of files -/

/-- Every file has the path of its key. -/
def Table.Keyed (files : Table File) : Prop := ∀ e ∈ files.entries, e.2.path = e.1

namespace Table

variable {files : Table File}

theorem keyed_empty : Keyed .empty := fun _ he => nomatch he

theorem Keyed.put (h : files.Keyed) (path content : String) :
    (files.put path ⟨path, content⟩).Keyed := by
  intro e he
  rcases Entries.eq_or_mem_of_mem_put he with rfl | he
  · rfl
  · exact h e he

theorem Keyed.retain (h : files.Keyed) (keep : String → Bool) : (files.retain keep).Keyed :=
  fun e he => h e (List.mem_of_mem_filter he)

theorem Keyed.erase (h : files.Keyed) (path : String) : (files.erase path).Keyed :=
  h.retain (· != path)

theorem Keyed.map_path_values (h : files.Keyed) : files.values.map File.path = files.keys := by
  rw [values, keys, List.map_map]
  exact List.map_congr_left h

/-- No two files have one path. -/
theorem Keyed.nodup_path_values (h : files.Keyed) : (files.values.map File.path).Nodup :=
  h.map_path_values ▸ files.nodup_keys

theorem keyed_ofList (files : List (String × String)) :
    (ofList (files.map fun f => (f.1, (⟨f.1, f.2⟩ : File)))).Keyed := by
  rw [ofList, List.foldl_map]
  refine List.foldlRecOn files _ keyed_empty fun t ht f _ => ?_
  exact ht.put f.1 f.2

end Table

namespace Project

/-! ## Where projects come from -/

/-- A project as it is before the first edit. -/
inductive Opened : Project → Prop
  | empty : Opened .empty
  | ofFiles (files : List (String × String)) : Opened (.ofFiles files)
  | starter : Opened .starter
  | stored {id text : String} {p : Project} (h : ofStored? id text = .ok p) : Opened p

theorem keyed_of_ofStored? {id text : String} {p : Project} (h : ofStored? id text = .ok p) :
    p.files.Keyed := by
  unfold ofStored? ofJson? at h
  cases hraw : ofRawJson? text with
  | error e => simp [hraw, Except.map, Except.mapError] at h
  | ok q =>
    obtain rfl : q.repair = p := by simpa [hraw, Except.map, Except.mapError] using h
    exact (isRepaired_repair q).path

/-- Before the first edit every file has the path of its key. -/
theorem Opened.keyed {p : Project} (h : p.Opened) : p.files.Keyed := by
  cases h with
  | empty => exact Table.keyed_empty
  | ofFiles files => exact Table.keyed_ofList files
  | starter => exact Table.keyed_ofList _
  | stored h => exact keyed_of_ofStored? h

end Project

end LivePreview
