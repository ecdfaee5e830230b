/-
  LivePreview.Table

  Tables from texts to values that remember the order in which their keys came
  in.  Each operation is described through `get?` and `keys`.
-/

import LivePreview.Entries

namespace LivePreview

/-- Keys with their values, in the order the keys came in.  No key comes twice. -/
@[ext]
structure Table (α : Type) where
  entries : List (String × α)
  nodup : (entries.map Prod.fst).Nodup
deriving DecidableEq

namespace Table

variable {α : Type} {t u : Table α} {k l : String} {v : α}

/-- No keys. -/
def empty : Table α := ⟨[], List.nodup_nil⟩

instance : Inhabited (Table α) := ⟨empty⟩

/-- The keys in order. -/
def keys (t : Table α) : List String := t.entries.map Prod.fst

/-- The values in the order of their keys. -/
def values (t : Table α) : List α := t.entries.map Prod.snd

/-- The number of keys. -/
def size (t : Table α) : Nat := t.entries.length

/-- The value of a key. -/
def get? (t : Table α) (k : String) : Option α := t.entries.lookup k

/-- The key is present. -/
def contains (t : Table α) (k : String) : Bool := (t.get? k).isSome

/-- Writes a value to a key.  A key that is present keeps its place; a new one goes
    to the end. -/
def put (t : Table α) (k : String) (v : α) : Table α :=
  ⟨Entries.put k v t.entries, Entries.nodup_put t.nodup k v⟩

/-- Keeps the keys that pass a test. -/
def retain (t : Table α) (keep : String → Bool) : Table α :=
  ⟨t.entries.filter fun e => keep e.1, t.nodup.sublist (List.filter_sublist.map Prod.fst)⟩

/-- Removes a key. -/
def erase (t : Table α) (k : String) : Table α := t.retain (· != k)

/-- Changes every value, keeping keys and order. -/
def mapValues (f : String → α → α) (t : Table α) : Table α where
  entries := t.entries.map fun e => (e.1, f e.1 e.2)
  nodup := by
    rw [List.map_map]
    exact t.nodup

/-- The values written one after the other, into an empty table. -/
def ofList (es : List (String × α)) : Table α := es.foldl (fun t e => t.put e.1 e.2) empty

theorem nodup_keys (t : Table α) : t.keys.Nodup := t.nodup

/-! ## Presence -/

theorem contains_iff_mem_keys : t.contains k = true ↔ k ∈ t.keys := Entries.isSome_lookup_iff

theorem get?_eq_none_iff : t.get? k = none ↔ k ∉ t.keys := by
  rw [← contains_iff_mem_keys, contains]
  simp

/-- A lookup finds an entry. -/
theorem get?_eq_some_iff : t.get? k = some v ↔ (k, v) ∈ t.entries :=
  Entries.lookup_eq_some_iff_mem t.nodup

/-- A lookup does not depend on the order of the keys. -/
theorem get?_eq_of_perm (hperm : t.entries.Perm u.entries) (k : String) :
    t.get? k = u.get? k := by
  refine Option.ext fun v => ?_
  rw [get?_eq_some_iff, get?_eq_some_iff, hperm.mem_iff]

/-! ## Writing -/

theorem get?_put_self (t : Table α) (k : String) (v : α) : (t.put k v).get? k = some v :=
  Entries.lookup_put_self k v t.entries

theorem get?_put_of_ne (h : l ≠ k) (t : Table α) (v : α) : (t.put k v).get? l = t.get? l :=
  Entries.lookup_put_of_ne h v t.entries

/-- A key that is present keeps its place; a new one goes to the end. -/
theorem keys_put (t : Table α) (k : String) (v : α) :
    (t.put k v).keys = if k ∈ t.keys then t.keys else t.keys ++ [k] :=
  Entries.map_fst_put k v t.entries

/-- A new key goes to the end with its value. -/
theorem entries_put_of_not_mem (h : k ∉ t.keys) (v : α) :
    (t.put k v).entries = t.entries ++ [(k, v)] :=
  Entries.put_of_not_mem h v

theorem mem_keys_put : l ∈ (t.put k v).keys ↔ l = k ∨ l ∈ t.keys := by
  rw [keys_put]
  split
  · next h => exact ⟨.inr, fun e => e.elim (fun e => e ▸ h) id⟩
  · simp [or_comm]

/-! ## Removing -/

@[simp] theorem entries_retain (t : Table α) (keep : String → Bool) :
    (t.retain keep).entries = t.entries.filter fun e => keep e.1 := rfl

@[simp] theorem entries_erase (t : Table α) (k : String) :
    (t.erase k).entries = t.entries.filter fun e => e.1 != k := rfl

theorem keys_retain (t : Table α) (keep : String → Bool) :
    (t.retain keep).keys = t.keys.filter keep := by
  unfold retain keys
  rw [List.filter_map]
  rfl

theorem keys_erase (t : Table α) (k : String) : (t.erase k).keys = t.keys.filter (· != k) :=
  keys_retain t _

/-- Where a key goes, the table gets smaller. -/
theorem size_retain_lt {keep : String → Bool} (h : k ∈ t.keys) (hk : keep k = false) :
    (t.retain keep).size < t.size := by
  obtain ⟨e, he, rfl⟩ := List.mem_map.mp h
  exact List.length_filter_lt_length_iff_exists.mpr ⟨e, he, by simp [hk]⟩

theorem get?_retain (t : Table α) (keep : String → Bool) (k : String) :
    (t.retain keep).get? k = if keep k then t.get? k else none := by
  refine Option.ext fun v => ?_
  rw [get?_eq_some_iff, retain, List.mem_filter, ← get?_eq_some_iff]
  by_cases hk : keep k = true <;> simp [hk]

theorem get?_erase (t : Table α) (k l : String) :
    (t.erase k).get? l = if l = k then none else t.get? l := by
  rw [erase, get?_retain]
  by_cases hl : l = k <;> simp [hl]

/-! ## Building -/

@[simp] theorem keys_mapValues (f : String → α → α) (t : Table α) :
    (t.mapValues f).keys = t.keys := by
  simp [mapValues, keys]

/-- Entries with different keys are kept as they are. -/
theorem entries_ofList {es : List (String × α)} (h : (es.map Prod.fst).Nodup) :
    (ofList es).entries = es := by
  have hfold : ∀ t : Table α, (t.keys ++ es.map Prod.fst).Nodup →
      (es.foldl (fun t e => t.put e.1 e.2) t).entries = t.entries ++ es := by
    clear h
    induction es with
    | nil => simp
    | cons e rest ih =>
      intro t ht
      have hnew : e.1 ∉ t.keys := fun hmem =>
        (List.nodup_append.mp ht).2.2 e.1 hmem e.1 List.mem_cons_self rfl
      have hkeys : (t.put e.1 e.2).keys = t.keys ++ [e.1] := by rw [keys_put, if_neg hnew]
      have hrest := ih (t.put e.1 e.2) (by simpa [hkeys] using ht)
      rw [List.foldl_cons, hrest, entries_put_of_not_mem hnew, List.append_assoc]
      rfl
  exact hfold empty h

/-- A table is made of its entries. -/
theorem ofList_entries (t : Table α) : ofList t.entries = t :=
  Table.ext (entries_ofList t.nodup)

end Table

end LivePreview
