/-
  LivePreview.Proofs.Cache

  The cache keeps records of contents that were analyzed before: those of other
  files, of earlier versions, of projects that were given up.  None of them can do
  harm.  `Cache.Sound` says that every record kept is the one its path and content
  have; as long as digests tell the contents apart, a build with a sound cache
  gives what a build without one gives (`Cache.build_fst`), and leaves a sound
  cache behind (`Cache.Sound.build`).
-/

import LivePreview.Cache

namespace LivePreview

open Script

/-- No two different contents of the list have the same digest. -/
def DigestsTellApart (contents : List String) : Prop :=
  ∀ a ∈ contents, ∀ b ∈ contents, Digest.sha256 a = Digest.sha256 b → a = b

instance (contents : List String) : Decidable (DigestsTellApart contents) :=
  inferInstanceAs (Decidable (∀ a ∈ contents, ∀ b ∈ contents, _ → _))

/-- The contents that a build of the project analyzes. -/
def Bundle.analyzed (options : Options) (project : Project) : List String :=
  match filesToBuild options project with
  | .ok files => files.map File.content
  | .error _ => []

namespace Cache

/-- Every record kept is that of its path and of one of the contents, under the
    digest of this content. -/
def Sound (contents : List String) (c : Cache) : Prop :=
  ∀ path entry, c.entries.get? path = some entry →
    ∃ content ∈ contents, entry = ⟨Digest.sha256 content, ModuleRecord.ofSource path content⟩

variable {contents : List String} {c : Cache}

theorem sound_empty (contents : List String) : empty.Sound contents := by
  intro path entry h
  cases h

theorem Sound.retain (h : c.Sound contents) (paths : List String) :
    (c.retain paths).Sound contents := by
  intro path entry hget
  rw [Cache.retain, Table.get?_retain] at hget
  split at hget
  · exact h path entry hget
  · cases hget

/-- A record found is the one that would be made. -/
theorem Sound.get?_eq (h : c.Sound contents) (hd : DigestsTellApart contents)
    {path source : String} (hs : source ∈ contents) {record : ModuleRecord}
    (hget : c.get? path source = some record) : record = ModuleRecord.ofSource path source := by
  unfold get? at hget
  split at hget
  · next entry hentry =>
    obtain ⟨content, hmem, rfl⟩ := h path entry hentry
    -- The digest is compared, and it tells the contents apart.
    split at hget
    · next hdigest =>
      have heq : content = source := hd content hmem source hs hdigest
      rw [heq] at hget
      exact (Option.some.inj hget).symm
    · cases hget
  · cases hget

theorem analyze_fst (h : c.Sound contents) (hd : DigestsTellApart contents)
    {path source : String} (hs : source ∈ contents) :
    (c.analyze path source).1 = ModuleRecord.ofSource path source := by
  unfold analyze
  split
  · next record hget => exact h.get?_eq hd hs hget
  · rfl

theorem Sound.analyze (h : c.Sound contents) (path : String) {source : String}
    (hs : source ∈ contents) : (c.analyze path source).2.Sound contents := by
  unfold Cache.analyze
  split
  · exact h
  · intro other entry hget
    simp only [set] at hget
    -- The new record is right as it was just made; the others were right before.
    by_cases hp : other = path
    · rw [hp, Table.get?_put_self] at hget
      exact ⟨source, hs, hp ▸ (Option.some.inj hget).symm⟩
    · rw [Table.get?_put_of_ne hp] at hget
      exact h other entry hget

/-- Analyzing some files with a sound cache gives the records they have. -/
theorem analyzeAll_fst (h : c.Sound contents) (hd : DigestsTellApart contents)
    {files : List File} (hs : ∀ f ∈ files, f.content ∈ contents) :
    (c.analyzeAll files).1 = files.map Bundle.recordOf := by
  -- Each file may change the cache, which is general for that reason.
  induction files generalizing c with
  | nil => rfl
  | cons f rest ih =>
    have hf : f.content ∈ contents := hs f List.mem_cons_self
    have hrest := ih (h.analyze f.path hf) fun g hg => hs g (List.mem_cons_of_mem f hg)
    simp only [analyzeAll, List.map_cons, hrest, analyze_fst h hd hf, Bundle.recordOf]

theorem Sound.analyzeAll (h : c.Sound contents) {files : List File}
    (hs : ∀ f ∈ files, f.content ∈ contents) : (c.analyzeAll files).2.Sound contents := by
  induction files generalizing c with
  | nil => exact h
  | cons f rest ih =>
    have hf : f.content ∈ contents := hs f List.mem_cons_self
    exact ih (h.analyze f.path hf) fun g hg => hs g (List.mem_cons_of_mem f hg)

variable {options : Options} {project : Project}

theorem content_mem_of_filesToBuild (hs : Bundle.analyzed options project ⊆ contents)
    {files : List File} (hfiles : Bundle.filesToBuild options project = .ok files) :
    ∀ f ∈ files, f.content ∈ contents := by
  intro f hf
  apply hs
  simp only [Bundle.analyzed, hfiles]
  exact List.mem_map_of_mem hf

/-- A build with a sound cache gives what a build without one gives. -/
theorem build_fst (h : c.Sound contents) (hd : DigestsTellApart contents)
    (hs : Bundle.analyzed options project ⊆ contents) :
    (c.build options project).1 = Bundle.build options project := by
  unfold build Bundle.build
  cases hfiles : Bundle.filesToBuild options project with
  | error e => rfl
  | ok files =>
    have hcontents := content_mem_of_filesToBuild hs hfiles
    simp only [analyzeAll_fst h hd hcontents]
    rfl

theorem Sound.build (h : c.Sound contents) (hs : Bundle.analyzed options project ⊆ contents) :
    (c.build options project).2.Sound contents := by
  unfold Cache.build
  cases hfiles : Bundle.filesToBuild options project with
  | error e => exact h
  | ok files => exact h.analyzeAll (content_mem_of_filesToBuild hs hfiles)

end Cache

end LivePreview
