/-
  LivePreview.Entries

  Lists of keys with their values, as a table of texts and a disk keep them.  A
  value is looked up with `List.lookup`.  Writing to a key that is present keeps
  its position; a new key goes to the end (`Entries.map_fst_put`).
-/

namespace LivePreview.Entries

variable {κ α : Type} [BEq κ] {es : List (κ × α)} {k l : κ} {v w : α}

/-- The entries with a value written to a key. -/
def put (k : κ) (v : α) : List (κ × α) → List (κ × α)
  | [] => [(k, v)]
  | e :: rest => if e.1 == k then (k, v) :: rest else e :: put k v rest

/-- What is there behind a writing was there before, or was written. -/
theorem eq_or_mem_of_mem_put {e : κ × α} (h : e ∈ put k v es) : e = (k, v) ∨ e ∈ es := by
  induction es with
  | nil => simpa [put] using h
  | cons d rest ih =>
    rw [put] at h
    split at h
    · exact (List.mem_cons.mp h).imp_right (List.mem_cons_of_mem d)
    · rcases List.mem_cons.mp h with rfl | h
      · exact .inr List.mem_cons_self
      · exact (ih h).imp_right (List.mem_cons_of_mem d)

variable [LawfulBEq κ]

/-! ## Looking up -/

theorem lookup_cons_of_ne {e : κ × α} (h : e.1 ≠ k) : (e :: es).lookup k = es.lookup k := by
  rw [List.lookup_cons, beq_eq_false_iff_ne.mpr (Ne.symm h)]

theorem isSome_lookup_iff : (es.lookup k).isSome = true ↔ k ∈ es.map Prod.fst := by
  rw [List.lookup_isSome_iff, List.mem_map]
  simp only [beq_iff_eq, eq_comm (a := k)]

theorem mem_of_lookup (h : es.lookup k = some v) : (k, v) ∈ es := by
  obtain ⟨before, after, rfl, -⟩ := List.lookup_eq_some_iff.mp h
  simp

/-- While no key comes twice, a lookup finds an entry. -/
theorem lookup_eq_some_iff_mem (h : (es.map Prod.fst).Nodup) :
    es.lookup k = some v ↔ (k, v) ∈ es := by
  refine ⟨mem_of_lookup, fun hmem => ?_⟩
  obtain ⟨before, after, rfl⟩ := List.append_of_mem hmem
  rw [List.map_append, List.map_cons, List.nodup_append] at h
  refine List.lookup_eq_some_iff.mpr ⟨before, after, rfl, fun e he => ?_⟩
  exact bne_iff_ne.mpr (Ne.symm (h.2.2 _ (List.mem_map_of_mem he) k List.mem_cons_self))

/-- An entry under another key makes no difference to a lookup. -/
theorem lookup_insert (h : l ≠ k) (before after : List (κ × α)) (v : α) :
    (before ++ (k, v) :: after).lookup l = (before ++ after).lookup l := by
  rw [List.lookup_append, List.lookup_append, lookup_cons_of_ne (Ne.symm h)]

/-! ## Writing -/

theorem lookup_put_self (k : κ) (v : α) (es : List (κ × α)) :
    (put k v es).lookup k = some v := by
  induction es with
  | nil => exact List.lookup_cons_self
  | cons e rest ih =>
    rw [put]
    split
    · exact List.lookup_cons_self
    · next hne => rw [lookup_cons_of_ne (by simpa using hne), ih]

theorem lookup_put_of_ne (h : l ≠ k) (v : α) (es : List (κ × α)) :
    (put k v es).lookup l = es.lookup l := by
  induction es with
  | nil => rw [put, lookup_cons_of_ne (Ne.symm h)]
  | cons e rest ih =>
    rw [put]
    split
    · next he =>
      rw [lookup_cons_of_ne (Ne.symm h), lookup_cons_of_ne]
      exact beq_iff_eq.mp he ▸ Ne.symm h
    · rw [List.lookup_cons, List.lookup_cons, ih]

/-- A key that is present keeps its place; a new one goes to the end. -/
theorem map_fst_put (k : κ) (v : α) (es : List (κ × α)) :
    (put k v es).map Prod.fst =
      if k ∈ es.map Prod.fst then es.map Prod.fst else es.map Prod.fst ++ [k] := by
  induction es with
  | nil => simp [put]
  | cons e rest ih =>
    rw [put]
    by_cases he : e.1 = k
    · simp [he]
    · rw [if_neg (by simpa using he), List.map_cons, ih]
      by_cases hk : k ∈ rest.map Prod.fst <;> simp [hk, Ne.symm he]

/-- A new key goes to the end with its value. -/
theorem put_of_not_mem (h : k ∉ es.map Prod.fst) (v : α) : put k v es = es ++ [(k, v)] := by
  induction es with
  | nil => rfl
  | cons e rest ih =>
    rw [List.map_cons, List.mem_cons, not_or] at h
    rw [put, if_neg (by simpa using Ne.symm h.1), ih h.2, List.cons_append]

/-- What is under another key stays. -/
theorem mem_put_of_ne (hne : l ≠ k) (h : (l, w) ∈ es) : (l, w) ∈ put k v es := by
  induction es with
  | nil => cases h
  | cons d rest ih =>
    rw [put]
    rcases List.mem_cons.mp h with rfl | h
    · rw [if_neg (by simpa using hne)]
      exact List.mem_cons_self
    · split
      · exact List.mem_cons_of_mem _ h
      · exact List.mem_cons_of_mem _ (ih h)

theorem nodup_put (h : (es.map Prod.fst).Nodup) (k : κ) (v : α) :
    ((put k v es).map Prod.fst).Nodup := by
  rw [map_fst_put]
  split
  · exact h
  · next hk =>
    rw [List.nodup_append]
    refine ⟨h, by simp, fun a ha b hb => ?_⟩
    rw [List.mem_singleton.mp hb]
    exact fun e => hk (e ▸ ha)

end LivePreview.Entries
