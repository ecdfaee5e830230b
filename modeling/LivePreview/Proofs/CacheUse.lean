/-
  LivePreview.Proofs.CacheUse

  How often a build uses the cache, and what it leaves there.

  A cache knows a file if it keeps a record under the digest of the content that the file has
  now (`Cache.knows`).  A build with a cache misses each script that the cache does not know,
  hits every other, knows all of them afterwards, and keeps nothing but keys of the project
  (`Cache.Serves`).  So a second build misses nothing, and the build after an edit at most
  the one file that the edit wrote (`Project.exists_writesOnly_edit`).  Over a run the misses
  are bounded by the number of edits (`Session.Current.exists_steps`).
-/

import LivePreview.Proofs.BuildCount
import LivePreview.Proofs.BuildOrder
import LivePreview.Proofs.Editing

namespace LivePreview

open Script

namespace Cache

variable {c c₁ c₂ : Cache} {f g : File} {files : List File} {options : Options}
  {project : Project}

/-! ## One file -/

/-- A record is kept under the digest of the content that the file has now. -/
def knows (c : Cache) (f : File) : Bool :=
  (c.entries.get? f.path).any (·.digest == Digest.sha256 f.content)

theorem knows_iff : c.knows f = true ↔
    ∃ entry, c.entries.get? f.path = some entry ∧ entry.digest = Digest.sha256 f.content := by
  simp [knows, Option.any_eq_true]

theorem isSome_get? (c : Cache) (f : File) : (c.get? f.path f.content).isSome = c.knows f := by
  unfold get? knows
  cases c.entries.get? f.path with
  | none => rfl
  | some entry => by_cases h : entry.digest = Digest.sha256 f.content <;> simp [h]

/-- What is known depends on the records at the path. -/
theorem knows_congr (h : c₁.entries.get? f.path = c₂.entries.get? f.path) :
    c₁.knows f = c₂.knows f := by
  rw [knows, knows, h]

theorem knows_retain {paths : List String} (h : f.path ∈ paths) :
    (c.retain paths).knows f = c.knows f := by
  refine knows_congr ?_
  rw [retain, Table.get?_retain, if_pos (List.contains_iff_mem.mpr h)]

/-! ## Files one after the other -/

/-- From the first cache to the second, these files were analyzed, each at its own path. -/
structure Analyzes (c : Cache) (files : List File) (c' : Cache) : Prop where
  misses_eq : c'.misses = c.misses + files.countP (!c.knows ·)
  hits_eq : c'.hits = c.hits + files.countP c.knows
  knows_mem : ∀ f ∈ files, c'.knows f = true
  knows_other : ∀ g, g.path ∉ files.map File.path → c'.knows g = c.knows g
  mem_keys : ∀ path ∈ c'.entries.keys, path ∈ c.entries.keys ∨ path ∈ files.map File.path

theorem Analyzes.refl (c : Cache) : Analyzes c [] c :=
  ⟨rfl, rfl, fun _ hf => (List.not_mem_nil hf).elim, fun _ _ => rfl, fun _ hpath => .inl hpath⟩

theorem analyzes_analyze (c : Cache) (f : File) :
    Analyzes c [f] (c.analyze f.path f.content).2 := by
  have hsome := isSome_get? c f
  unfold analyze
  cases hget : c.get? f.path f.content with
  | some record =>
    -- A hit is counted, and the records stay.
    have hknows : c.knows f = true := by rw [← hsome, hget, Option.isSome_some]
    refine ⟨by simp [hknows], by simp [hknows], ?_, fun _ _ => rfl, fun _ hpath => .inl hpath⟩
    rintro g hg
    obtain rfl := List.mem_singleton.mp hg
    exact hknows
  | none =>
    have hknows : c.knows f = false := by rw [← hsome, hget, Option.isSome_none]
    refine ⟨by simp [hknows, set], by simp [hknows, set], ?_, fun g hg => ?_, fun path hpath => ?_⟩
    · rintro g hg
      obtain rfl := List.mem_singleton.mp hg
      simp [knows, set, Table.get?_put_self]
    · have hne : g.path ≠ f.path := by simpa using hg
      exact knows_congr (Table.get?_put_of_ne hne _ _)
    · rcases Table.mem_keys_put.mp hpath with rfl | hpath
      · exact .inr (List.mem_singleton_self _)
      · exact .inl hpath

/-- The files analyzed next are at other paths, so that what was known of them still is. -/
theorem Analyzes.cons (h : Analyzes c [f] c₁) (hnew : f.path ∉ files.map File.path)
    (hrest : Analyzes c₁ files c₂) : Analyzes c (f :: files) c₂ := by
  have hother (g) (hg : g ∈ files) : c₁.knows g = c.knows g := by
    refine h.knows_other g ?_
    rw [List.map_singleton, List.mem_singleton]
    intro heq
    exact hnew (heq ▸ List.mem_map_of_mem hg)
  -- So it does not matter for the counts that the others are analyzed later.
  have hmisses : files.countP (!c₁.knows ·) = files.countP (!c.knows ·) :=
    List.countP_congr fun g hg => by rw [hother g hg]
  have hhits : files.countP c₁.knows = files.countP c.knows :=
    List.countP_congr fun g hg => by rw [hother g hg]
  refine ⟨?_, ?_, ?_, fun g hg => ?_, fun path hpath => ?_⟩
  · rw [hrest.misses_eq, h.misses_eq, hmisses, List.countP_singleton, List.countP_cons]
    omega
  · rw [hrest.hits_eq, h.hits_eq, hhits, List.countP_singleton, List.countP_cons]
    omega
  · rw [List.forall_mem_cons]
    refine ⟨?_, hrest.knows_mem⟩
    rw [hrest.knows_other f hnew]
    exact h.knows_mem f (List.mem_singleton_self f)
  · rw [List.map_cons, List.mem_cons, not_or] at hg
    rw [hrest.knows_other g hg.2]
    exact h.knows_other g (by simpa using hg.1)
  · rw [List.map_cons, List.mem_cons]
    rcases hrest.mem_keys path hpath with hpath | hpath
    · exact (h.mem_keys path hpath).imp_right fun hmem => .inl (by simpa using hmem)
    · exact .inr (.inr hpath)

theorem analyzes_analyzeAll (c : Cache) (h : (files.map File.path).Nodup) :
    Analyzes c files (c.analyzeAll files).2 := by
  induction files generalizing c with
  | nil => exact .refl c
  | cons f rest ih =>
    obtain ⟨hnew, hrest⟩ := List.nodup_cons.mp h
    exact (analyzes_analyze c f).cons hnew (ih _ hrest)

/-! ## A build -/

/-- The first cache served a build of the project, which left the second one. -/
structure Serves (c : Cache) (project : Project) (c' : Cache) : Prop where
  misses_eq : c'.misses = c.misses + project.scripts.countP (!c.knows ·)
  hits_eq : c'.hits = c.hits + project.scripts.countP c.knows
  knows : ∀ f ∈ project.scripts, c'.knows f = true
  mem_paths : ∀ path ∈ c'.entries.keys, path ∈ project.paths

/-- With valid options every script is analyzed, also when there is none. -/
theorem build_snd (h : options.validate = .ok ()) (c : Cache) (project : Project) :
    (c.build options project).2 = (c.analyzeAll project.scripts).2 := by
  unfold build Bundle.filesToBuild
  rw [h]
  cases hscripts : project.scripts <;> rfl

theorem path_mem_paths_of_mem_scripts (hkeyed : project.files.Keyed) (hf : f ∈ project.scripts) :
    f.path ∈ project.paths := by
  have hmem : f.path ∈ project.files.values.map File.path :=
    List.mem_map_of_mem (List.mem_of_mem_filter hf)
  rwa [hkeyed.map_path_values] at hmem

theorem serves_build (h : options.validate = .ok ()) (hkeyed : project.files.Keyed) (c : Cache) :
    Serves c project ((c.retain project.paths).build options project).2 := by
  rw [build_snd h]
  have hrun := analyzes_analyzeAll (c.retain project.paths) (Project.nodup_path_scripts hkeyed)
  have hpath {f} (hf : f ∈ project.scripts) := path_mem_paths_of_mem_scripts hkeyed hf
  -- The paths of the scripts are keys, so their records are not forgotten before the build.
  have hknows (f) (hf : f ∈ project.scripts) : (c.retain project.paths).knows f = c.knows f :=
    knows_retain (hpath hf)
  refine ⟨?_, ?_, hrun.knows_mem, fun path hmem => ?_⟩
  · rw [hrun.misses_eq, List.countP_congr fun f hf => by rw [hknows f hf]]
    rfl
  · rw [hrun.hits_eq, List.countP_congr fun f hf => by rw [hknows f hf]]
    rfl
  · rcases hrun.mem_keys path hmem with hkey | hscript
    · rw [retain, Table.keys_retain] at hkey
      exact List.contains_iff_mem.mp (List.mem_filter.mp hkey).2
    · obtain ⟨f, hf, rfl⟩ := List.mem_map.mp hscript
      exact hpath hf

/-- If the cache knows the scripts but those of one path, at most one is missed. -/
theorem Serves.misses_le (h : Serves c project c₁) (hkeyed : project.files.Keyed) (path : String)
    (hknows : ∀ f ∈ project.scripts, f.path ≠ path → c.knows f = true) :
    c₁.misses ≤ c.misses + 1 := by
  have hcount : project.scripts.countP (!c.knows ·) ≤ 1 := calc
    project.scripts.countP (!c.knows ·) ≤ project.scripts.countP (·.path == path) := by
      refine List.countP_mono_left fun f hf hmiss => ?_
      by_contra hne
      rw [hknows f hf (by simpa using hne)] at hmiss
      cases hmiss
    _ = (project.scripts.map File.path).count path := by
      rw [List.count, List.countP_map]
      rfl
    _ ≤ 1 := List.nodup_iff_count.mp (Project.nodup_path_scripts hkeyed) path
  rw [h.misses_eq]
  omega

/-- If it knows all scripts, none is missed. -/
theorem Serves.misses_eq_of_knows (h : Serves c project c₁)
    (hknows : ∀ f ∈ project.scripts, c.knows f = true) : c₁.misses = c.misses := by
  have hcount : project.scripts.countP (!c.knows ·) = 0 :=
    List.countP_eq_zero.mpr fun f hf => by simp [hknows f hf]
  rw [h.misses_eq, hcount, Nat.add_zero]

end Cache

/-! ## The file that an edit writes -/

namespace Project

theorem mem_values_put {files : Table File} {path : String} {file f : File}
    (h : f ∈ (files.put path file).values) : f = file ∨ f ∈ files.values := by
  obtain ⟨entry, hentry, rfl⟩ := List.mem_map.mp h
  rcases Entries.eq_or_mem_of_mem_put hentry with rfl | hmem
  · exact .inl rfl
  · exact .inr (List.mem_map_of_mem hmem)

theorem mem_values_retain {files : Table File} {f : File} (keep : String → Bool)
    (h : f ∈ (files.retain keep).values) : f ∈ files.values := by
  obtain ⟨entry, hentry, rfl⟩ := List.mem_map.mp h
  exact List.mem_map_of_mem (List.mem_of_mem_filter hentry)

/-- From the first project to the second, files were written at this path only. -/
def WritesOnly (p : Project) (path : String) (q : Project) : Prop :=
  ∀ f ∈ q.files.values, f.path ≠ path → f ∈ p.files.values

/-- An edit writes files at one path at most. -/
theorem exists_writesOnly_edit (p : Project) (e : Edit) :
    ∃ path, WritesOnly p path (p.edit e).1 := by
  have hchanges : e.Changes p.files (p.edit e).1.files := changes_edit p e
  unfold WritesOnly
  generalize (p.edit e).1.files = after at hchanges ⊢
  cases hchanges with
  | kept => exact ⟨"", fun _ hf _ => hf⟩
  | @written _ path _ text =>
    refine ⟨path, fun f hf hne => ?_⟩
    exact (mem_values_put hf).resolve_left fun heq => hne (congrArg File.path heq)
  | removed _ keep => exact ⟨"", fun _ hf _ => mem_values_retain keep hf⟩
  | @moved source target =>
    refine ⟨target, fun f hf hne => ?_⟩
    have hmem := (mem_values_put hf).resolve_left fun heq => hne (congrArg File.path heq)
    exact mem_values_retain (· != source) hmem

end Project

/-! ## Sessions with the cache on -/

namespace Session

variable {s : Session} {c : Cache}

/-- The cache is on and knows every script of the project. -/
structure Current (s : Session) (c : Cache) : Prop where
  cache_eq : s.cache = some c
  valid : s.options.validate = .ok ()
  keyed : s.project.files.Keyed
  knows : ∀ f ∈ s.project.scripts, c.knows f = true

/-- The step changes the files of the project or what is chosen of them. -/
def Step.isEdit : Step → Bool
  | .edit _ => true
  | _ => false

/-- A build makes the cache current, whatever was in it. -/
theorem exists_current_rebuild (hc : s.cache = some c) (hvalid : s.options.validate = .ok ())
    (hkeyed : s.project.files.Keyed) :
    ∃ c', Current s.rebuild c' ∧ c.Serves s.project c' := by
  have hserves := Cache.serves_build hvalid hkeyed c
  refine ⟨_, ⟨?_, hvalid, hkeyed, hserves.knows⟩, hserves⟩
  simp only [rebuild, buildWith, hc]

theorem Current.exists_rebuild (h : Current s c) :
    ∃ c', Current s.rebuild c' ∧ c'.misses = c.misses := by
  obtain ⟨c', hnext, hserves⟩ := exists_current_rebuild h.cache_eq h.valid h.keyed
  exact ⟨c', hnext, hserves.misses_eq_of_knows h.knows⟩

/-- An edit misses at most the file that it wrote. -/
theorem Current.exists_edit (h : Current s c) (e : Edit) :
    ∃ c', Current (s.edit e).1 c' ∧ c'.misses ≤ c.misses + 1 := by
  -- To select a file is the one edit that no build follows.
  by_cases hactive : ∃ path, e = .setActive path
  · obtain ⟨path, rfl⟩ := hactive
    exact ⟨c, ⟨h.cache_eq, h.valid, h.keyed, h.knows⟩, Nat.le_succ _⟩
  have hbuild := Edit.needsBuild_eq (not_exists.mp hactive) (s.edit e).2
  cases hrefused : (s.edit e).2.isRefusal with
  | true =>
    rw [edit_of_isRefusal hrefused]
    exact ⟨c, h, Nat.le_succ _⟩
  | false =>
    rw [hrefused, Bool.not_false] at hbuild
    have hedited : (s.edit e).1 = rebuild { s with project := (s.project.edit e).1 } :=
      if_pos hbuild
    have hkeyed : (s.project.edit e).1.files.Keyed := Project.keyed_edit h.keyed e
    obtain ⟨c', hnext, hserves⟩ := exists_current_rebuild
      (s := { s with project := (s.project.edit e).1 }) h.cache_eq h.valid hkeyed
    -- Every other script of the new project was one of the old project, and is known.
    obtain ⟨path, hpath⟩ := Project.exists_writesOnly_edit s.project e
    refine ⟨c', hedited ▸ hnext, hserves.misses_le hkeyed path fun f hf hne => ?_⟩
    obtain ⟨hmem, hscript⟩ := List.mem_filter.mp hf
    exact h.knows f (List.mem_filter.mpr ⟨hpath f hmem hne, hscript⟩)

theorem Current.exists_step (h : Current s c) {x : Step} (hx : ∀ project, x ≠ .replace project) :
    ∃ c', Current (s.step x).1 c' ∧ c'.misses ≤ c.misses + if x.isEdit = true then 1 else 0 := by
  cases x with
  | edit e => exact h.exists_edit e
  | replace project => exact absurd rfl (hx project)
  | enableCache =>
    have hkept : s.enableCache.cache = some c := by rw [enableCache, h.cache_eq, Option.getD_some]
    exact ⟨c, ⟨hkept, h.valid, h.keyed, h.knows⟩, Nat.le_add_right _ _⟩
  | rebuild =>
    obtain ⟨c', hnext, hmisses⟩ := h.exists_rebuild
    exact ⟨c', hnext, Nat.le_add_right_of_le (Nat.le_of_eq hmisses)⟩
  | teardown => exact ⟨c, ⟨h.cache_eq, h.valid, h.keyed, h.knows⟩, Nat.le_add_right _ _⟩

/-- While the project is not replaced, the cache stays current, and at most one file is missed
    for each edit. -/
theorem Current.exists_steps (h : Current s c) {todo : List Step}
    (htodo : ∀ project, .replace project ∉ todo) :
    ∃ c', Current (s.steps todo) c' ∧ c'.misses ≤ c.misses + todo.countP Step.isEdit := by
  induction todo generalizing s c with
  | nil => exact ⟨c, h, Nat.le_refl _⟩
  | cons x rest ih =>
    obtain ⟨c₁, hstep, hfirst⟩ := h.exists_step (x := x) fun project heq =>
      htodo project (heq ▸ List.mem_cons_self)
    obtain ⟨c', hrun, hrest⟩ := ih hstep fun project hmem =>
      htodo project (List.mem_cons_of_mem x hmem)
    refine ⟨c', hrun, ?_⟩
    rw [List.countP_cons]
    omega

/-- A build with the cache on, whatever was cached before.  It misses the scripts that were
    not cached under the digest of their content and hits the others; afterwards all of them
    are cached so, and every path that is cached is a key.  A build right after it misses
    nothing.  What follows it misses at most one file for each edit, until the project is
    replaced. -/
theorem misses_rebuild (hc : s.cache = some c) (hvalid : s.options.validate = .ok ())
    (hkeyed : s.project.files.Keyed) :
    ∃ c', s.rebuild.cache = some c' ∧
      (c'.misses = c.misses + s.project.scripts.countP (!c.knows ·) ∧
        c'.hits = c.hits + s.project.scripts.countP c.knows) ∧
      (∀ f ∈ s.project.scripts, ∃ entry, c'.entries.get? f.path = some entry ∧
        entry.digest = Digest.sha256 f.content) ∧
      (∀ path ∈ c'.entries.keys, path ∈ s.project.paths) ∧
      (∃ c₂, s.rebuild.rebuild.cache = some c₂ ∧ c₂.misses = c'.misses) ∧
      ∀ todo : List Step, (∀ project, .replace project ∉ todo) →
        ∃ c₂, (s.rebuild.steps todo).cache = some c₂ ∧
          c₂.misses ≤ c'.misses + todo.countP Step.isEdit := by
  obtain ⟨c', hnext, hserves⟩ := exists_current_rebuild hc hvalid hkeyed
  refine ⟨c', hnext.cache_eq, ⟨hserves.misses_eq, hserves.hits_eq⟩,
    fun f hf => Cache.knows_iff.mp (hserves.knows f hf), hserves.mem_paths, ?_, ?_⟩
  · obtain ⟨c₂, hagain, hmisses⟩ := hnext.exists_rebuild
    exact ⟨c₂, hagain.cache_eq, hmisses⟩
  · intro todo htodo
    obtain ⟨c₂, hrun, hmisses⟩ := hnext.exists_steps htodo
    exact ⟨c₂, hrun.cache_eq, hmisses⟩

/-- The first build with the cache misses both scripts; a rename then misses at most the file
    under its new path. -/
theorem misses_rebuild_twoScripts :
    let s := (ofProject oneScript {}).steps
      [.edit (.upsert "b.js" (some "let b = 1;")), .enableCache]
    ∃ c', s.rebuild.cache = some c' ∧ (c'.misses = 2 ∧ c'.hits = 0) ∧
      ∃ c₂, (s.rebuild.steps [.edit (.rename "b.js" "c.js"), .rebuild]).cache = some c₂ ∧
        c₂.misses ≤ 3 := by
  intro s
  have hcache : s.cache = some .empty := rfl
  have hkeyed : s.project.files.Keyed :=
    Project.keyed_upsert (Table.keyed_ofList [("a.js", "export default A;")]) "b.js" _
  have hmiss : s.project.scripts.countP (!Cache.empty.knows ·) = 2 := by decide +kernel
  have hhit : s.project.scripts.countP Cache.empty.knows = 0 := by decide +kernel
  obtain ⟨c', hbuilt, ⟨hmisses, hhits⟩, -, -, -, hrun⟩ :=
    misses_rebuild hcache Options.validate_default hkeyed
  rw [hmiss] at hmisses
  rw [hhit] at hhits
  obtain ⟨c₂, hlast, hle⟩ := hrun [.edit (.rename "b.js" "c.js"), .rebuild] (by simp)
  rw [hmisses] at hle
  exact ⟨c', hbuilt, ⟨hmisses, hhits⟩, c₂, hlast, hle⟩

end Session

end LivePreview
