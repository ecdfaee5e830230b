/-
  LivePreview.Proofs.Session

  What holds all through a session.

  `Session.Kept` is what every step keeps, whether it builds or not: the records
  in the cache are right, the build numbers grow, and what is seen is the preview
  of the last build that succeeded.  `Session.Fresh` adds that the last build is
  one of the project as it is now.  A build makes a session fresh from what is kept
  (`Fresh.of_rebuild`), and the steps that do not build change nothing that a build
  reads (`build_edit_of_not_needsBuild`).

  Two sessions that differ in their caches only (`Session.Twins`) stay so: nothing
  that is reported or seen tells whether the cache is on.
-/

import LivePreview.Proofs.Cache
import LivePreview.Proofs.Surface
import LivePreview.Session

namespace LivePreview

/-! ## Steps that do not build -/

/-- An edit after which nothing is built leaves every preview as it is. -/
theorem Edit.build_edit_of_not_needsBuild {e : Edit} {p : Project}
    (h : e.needsBuild (p.edit e).2 = false) (options : Options) :
    Preview.build options (p.edit e).1 = Preview.build options p ∧
      Bundle.analyzed options (p.edit e).1 = Bundle.analyzed options p := by
  by_cases hactive : ∃ path, e = .setActive path
  · obtain ⟨path, rfl⟩ := hactive
    exact ⟨rfl, rfl⟩
  · -- All other edits are built unless they were refused.
    have hrefused : (p.edit e).2 = .carriedOut false ∨ (p.edit e).2 = .removed 0 := by
      cases e with
      | setActive path => exact absurd ⟨path, rfl⟩ hactive
      | _ =>
        revert h
        generalize (p.edit _).2 = reply
        cases reply <;> simp [Edit.needsBuild]
    rw [Project.edit_eq_self hrefused]
    exact ⟨rfl, rfl⟩

namespace Session

/-! ## Runs -/

/-- The states of a run, from the first to the last. -/
def states (s : Session) : List Step → List Session
  | [] => [s]
  | x :: rest => s :: states (s.step x).1 rest

/-- The contents that are analyzed in a run. -/
def analyzed (s : Session) (todo : List Step) : List String :=
  (s.states todo).flatMap fun t => Bundle.analyzed t.options t.project

/-- The preview of the last build in a run that succeeded. -/
def lastPreview? (s : Session) (todo : List Step) : Option Preview :=
  (s.states todo).reverse.findSome? preview?

theorem steps_cons (s : Session) (x : Step) (rest : List Step) :
    s.steps (x :: rest) = (s.step x).1.steps rest := rfl

theorem analyzed_cons (s : Session) (x : Step) (rest : List Step) :
    s.analyzed (x :: rest) = Bundle.analyzed s.options s.project ++ (s.step x).1.analyzed rest := by
  simp [analyzed, states]

theorem analyzed_subset (s : Session) (todo : List Step) :
    Bundle.analyzed s.options s.project ⊆ s.analyzed todo := by
  cases todo <;> simp [analyzed, states]

theorem lastPreview?_cons (s : Session) (x : Step) (rest : List Step) :
    s.lastPreview? (x :: rest) = ((s.step x).1.lastPreview? rest).or s.preview? := by
  simp [lastPreview?, states, List.findSome?_append]

@[simp] theorem options_steps (s : Session) (todo : List Step) :
    (s.steps todo).options = s.options := by
  induction todo generalizing s with
  | nil => rfl
  | cons x rest ih => rw [steps_cons, ih, options_step]

/-! ## Building -/

section Building

variable {contents : List String} {cache : Option Cache} {options : Options} {project : Project}

/-- With the cache or without it, a build gives the preview of the project. -/
theorem buildWith_fst (hc : ∀ c, cache = some c → c.Sound contents)
    (hd : DigestsTellApart contents) (hs : Bundle.analyzed options project ⊆ contents) :
    (buildWith cache options project).1 = Preview.build options project := by
  cases cache with
  | none => rfl
  | some c =>
    have hsound := (hc c rfl).retain project.paths
    simp only [buildWith, Cache.build_fst hsound hd hs]
    rfl

theorem sound_buildWith (hc : ∀ c, cache = some c → c.Sound contents)
    (hs : Bundle.analyzed options project ⊆ contents) :
    ∀ c, (buildWith cache options project).2 = some c → c.Sound contents := by
  intro c h
  cases cache with
  | none => cases h
  | some old =>
    have hsound := ((hc old rfl).retain project.paths).build hs
    exact Option.some.inj h ▸ hsound

theorem sound_enableCache (hc : ∀ c, cache = some c → c.Sound contents) :
    ∀ c, some (cache.getD .empty) = some c → c.Sound contents := by
  intro c h
  cases cache with
  | none => exact Option.some.inj h ▸ Cache.sound_empty contents
  | some old => exact Option.some.inj h ▸ hc old rfl

end Building

/-! ## What every step keeps -/

/-- The cache is sound, no number of a build is ahead of the session, and what is
    seen is the last preview. -/
structure Kept (contents : List String) (last : Option Preview) (s : Session) : Prop where
  sound : ∀ c, s.cache = some c → c.Sound contents
  latest_le : ∀ g, s.runner.latest = some g → g ≤ s.generation
  owns : s.runner.OwnsCurrent
  shows : s.runner.Shows (last.map (·.document.html))

/-- In addition, the last build is one of the project as it is now, and its preview,
    if it has one, is the last. -/
structure Fresh (contents : List String) (last : Option Preview) (s : Session) : Prop extends
    Kept contents last s where
  built_eq : s.built = Preview.build s.options s.project
  preview_or : s.preview?.or last = last

variable {contents : List String} {last : Option Preview} {s : Session}

theorem built_rebuild (h : Kept contents last s) (hd : DigestsTellApart contents)
    (hs : Bundle.analyzed s.options s.project ⊆ contents) :
    s.rebuild.built = Preview.build s.options s.project :=
  buildWith_fst h.sound hd hs

theorem runner_rebuild (s : Session) :
    s.rebuild.runner = shown s.runner (s.generation + 1) s.rebuild.built := rfl

/-- A build brings what is kept up to date. -/
theorem Fresh.of_rebuild (h : Kept contents last s) (hd : DigestsTellApart contents)
    (hs : Bundle.analyzed s.options s.project ⊆ contents) :
    Fresh contents (s.rebuild.preview?.or last) s.rebuild := by
  -- The new number is ahead of every build that was shown, so the surface takes it.
  have hnew : s.runner.isStale (s.generation + 1) = false := by
    apply Runner.isStale_of_latest_le
    intro g hg
    have := h.latest_le g hg
    omega
  have hbuilt := built_rebuild h hd hs
  have hsound := sound_buildWith h.sound hs
  refine ⟨⟨hsound, ?_, ?_, ?_⟩, hbuilt, by cases s.rebuild.preview? <;> rfl⟩
  -- The build either shows its preview or leaves the surface alone.
  all_goals
    rw [runner_rebuild]
    cases hb : s.rebuild.built with
    | error e => ?_
    | ok preview => ?_
  · intro g hg
    exact Nat.le_succ_of_le (h.latest_le g hg)
  · intro g hg
    rw [shown, Runner.latest_present_of_not_isStale hnew] at hg
    exact Nat.le_of_eq (Option.some.inj hg).symm
  · exact h.owns
  · exact Runner.ownsCurrent_present h.owns _ _
  · simpa [preview?, hb, shown] using h.shows
  · simpa [preview?, hb, shown] using
      Runner.shows_present h.owns hnew preview.document.html

theorem Kept.of_project (h : Kept contents last s) (project : Project) :
    Kept contents last { s with project } :=
  ⟨h.sound, h.latest_le, h.owns, h.shows⟩

/-- A step that does not build keeps a session fresh. -/
theorem Fresh.of_edit (h : Fresh contents last s) {e : Edit}
    (he : e.needsBuild (s.project.edit e).2 = false) :
    Fresh contents last { s with project := (s.project.edit e).1 } :=
  ⟨h.toKept.of_project _,
    h.built_eq.trans (Edit.build_edit_of_not_needsBuild he s.options).1.symm, h.preview_or⟩

/-- Every step leads from a fresh state to a fresh one. -/
theorem Fresh.step (h : Fresh contents last s) (hd : DigestsTellApart contents) (x : Step)
    (hs : Bundle.analyzed (s.step x).1.options (s.step x).1.project ⊆ contents) :
    Fresh contents ((s.step x).1.preview?.or last) (s.step x).1 := by
  -- A build makes the state fresh; without one, what is shown and what it shows stay.
  cases x with
  | edit e =>
    cases he : e.needsBuild (s.project.edit e).2 with
    | true =>
      simp only [Session.step, Session.edit, he, if_true] at hs ⊢
      exact Fresh.of_rebuild (h.toKept.of_project _) hd hs
    | false =>
      have hnext := h.of_edit he
      simp only [Session.step, Session.edit, he, Bool.false_eq_true, if_false]
      exact hnext.preview_or.symm ▸ hnext
  | replace project => exact Fresh.of_rebuild (h.toKept.of_project project) hd hs
  | enableCache =>
    have hnext : Fresh contents last s.enableCache :=
      ⟨⟨sound_enableCache h.sound, h.latest_le, h.owns, h.shows⟩, h.built_eq, h.preview_or⟩
    exact hnext.preview_or.symm ▸ hnext
  | rebuild => exact Fresh.of_rebuild h.toKept hd hs
  | teardown =>
    have hnext : Fresh contents last s.teardown :=
      ⟨⟨h.sound, h.latest_le, Runner.ownsCurrent_teardown _, Runner.shows_teardown _ _⟩,
        h.built_eq, h.preview_or⟩
    exact hnext.preview_or.symm ▸ hnext

/-- So does every run; the last preview is the last one of the run, or else the one
    before it. -/
theorem Fresh.steps (hd : DigestsTellApart contents) {todo : List Step}
    (h : Fresh contents (s.preview?.or last) s) (hs : s.analyzed todo ⊆ contents) :
    Fresh contents ((s.lastPreview? todo).or last) (s.steps todo) := by
  -- The state and the last preview before it stay general.
  induction todo generalizing s last with
  | nil => simpa [lastPreview?, states, Session.steps] using h
  | cons x rest ih =>
    rw [analyzed_cons, List.append_subset] at hs
    have hfirst := List.Subset.trans (analyzed_subset (s.step x).1 rest) hs.2
    have hnext := ih (h.step hd x hfirst) hs.2
    rwa [lastPreview?_cons, Option.or_assoc]

/-- A session is opened fresh. -/
theorem fresh_ofProject (hd : DigestsTellApart contents) (project : Project) (options : Options)
    (hs : Bundle.analyzed options project ⊆ contents) :
    Fresh contents ((ofProject project options).preview?.or none) (ofProject project options) := by
  refine Fresh.of_rebuild ⟨?_, ?_, Runner.ownsCurrent_ofScheme _, ?_⟩ hd hs
  · intro c hc
    cases hc
  · intro g hg
    cases hg
  · exact fun hcur => absurd rfl hcur

/-- Every state that a session reaches is fresh. -/
theorem fresh_steps_ofProject (project : Project) (options : Options) (todo : List Step)
    (hd : DigestsTellApart ((ofProject project options).analyzed todo)) :
    Fresh ((ofProject project options).analyzed todo)
      ((ofProject project options).lastPreview? todo)
      ((ofProject project options).steps todo) := by
  have hfirst := analyzed_subset (ofProject project options) todo
  simpa using Fresh.steps hd (fresh_ofProject hd project options hfirst) (List.Subset.refl _)

/-! ## Nothing shown is stale -/

/-- Whatever was done in a session, its last build is that of the project as it is
    now, and the document of a live handle is that of the last build that
    succeeded. -/
theorem never_stale (project : Project) (options : Options) (todo : List Step)
    (hd : DigestsTellApart ((ofProject project options).analyzed todo)) :
    let s := (ofProject project options).steps todo
    (∀ b, Preview.build options s.project = .ok b →
      s.preview? = some b ∧ s.diagnostic? = none ∧
        (s.runner.current ≠ none → s.runner.host.loadedDocument? = some b.document.html)) ∧
    (∀ e, Preview.build options s.project = .error e →
      s.preview? = none ∧ s.diagnostic? = some e.message ∧
        (s.runner.current ≠ none →
          ∃ b, (ofProject project options).lastPreview? todo = some b ∧
            s.runner.host.loadedDocument? = some b.document.html)) := by
  intro s
  have h := fresh_steps_ofProject project options todo hd
  have hoptions : s.options = options := options_steps _ todo
  have hbuilt : s.built = Preview.build options s.project := hoptions ▸ h.built_eq
  constructor
  · intro b hb
    have hpreview : s.preview? = some b := by rw [preview?, hbuilt, hb]
    have hlast : some b = (ofProject project options).lastPreview? todo := by
      rw [← h.preview_or, hpreview, Option.some_or]
    refine ⟨hpreview, by rw [diagnostic?, hbuilt, hb], fun hlive => ?_⟩
    rw [(h.shows hlive).2, ← hlast]
    rfl
  · intro e he
    refine ⟨by rw [preview?, hbuilt, he], by rw [diagnostic?, hbuilt, he], fun hlive => ?_⟩
    obtain ⟨hsome, hshown⟩ := h.shows hlive
    obtain ⟨b, hb⟩ := Option.ne_none_iff_exists'.mp (mt Option.map_eq_none_iff.mpr hsome)
    exact ⟨b, hb, by rw [hshown, hb]; rfl⟩

/-- A project of one script. -/
def oneScript : Project := .ofFiles [("a.js", "export default A;")]

/-- Its script is changed with the cache on, then deleted: the failure is reported, and
    the page of the changed script stays on the surface. -/
theorem never_stale_after_delete :
    let todo := [.enableCache, .edit (.upsert "a.js" (some "export default B;")), .rebuild,
      .edit (.delete "a.js")]
    let s := (ofProject oneScript {}).steps todo
    DigestsTellApart ((ofProject oneScript {}).analyzed todo) ∧
      s.preview? = none ∧ s.diagnostic? = some "No JavaScript/TypeScript files found" ∧
        ∃ b, (ofProject oneScript {}).lastPreview? todo = some b ∧
          s.runner.host.loadedDocument? = some b.document.html := by
  intro todo s
  have hd : DigestsTellApart ((ofProject oneScript {}).analyzed todo) := by decide +kernel
  have hscripts : s.project.scripts = [] := by decide +kernel
  have hbuild : Preview.build {} s.project = .error .noScriptFiles := by
    simp [Preview.build, Bundle.build, Bundle.filesToBuild, Options.validate_default, hscripts,
      Except.map]
  have hlive : s.runner.current.isSome = true := by decide +kernel
  obtain ⟨hpreview, hdiagnostic, hshown⟩ := (never_stale oneScript {} todo hd).2 _ hbuild
  exact ⟨hd, hpreview, hdiagnostic, hshown (Option.isSome_iff_ne_none.mp hlive)⟩

/-! ## Sessions that differ in their caches -/

/-- What can be seen of a session. -/
structure View where
  project : Project
  generation : Nat
  diagnostic? : Option String
  preview? : Option Preview
  /-- The url that is live. -/
  handle? : Option String
  loadedUrl? : Option String
  loadedDocument? : Option String
  /-- The number of live documents. -/
  live : Nat
  released : List String

/-- What is seen of a session now. -/
def view (s : Session) : View where
  project := s.project
  generation := s.generation
  diagnostic? := s.diagnostic?
  preview? := s.preview?
  handle? := s.runner.current
  loadedUrl? := s.runner.host.loaded
  loadedDocument? := s.runner.host.loadedDocument?
  live := s.runner.host.live
  released := s.runner.host.released

/-- What each step of a run reports, and what is seen after it. -/
def trace (s : Session) : List Step → List (Reply × View)
  | [] => []
  | x :: rest => ((s.step x).2, (s.step x).1.view) :: trace (s.step x).1 rest

/-- The sessions differ in their caches at most, and the records in these are right. -/
structure Twins (contents : List String) (s t : Session) : Prop where
  eq_withCache : t = { s with cache := t.cache }
  sound_left : ∀ c, s.cache = some c → c.Sound contents
  sound_right : ∀ c, t.cache = some c → c.Sound contents

variable {t : Session}

theorem Twins.refl (h : ∀ c, s.cache = some c → c.Sound contents) : Twins contents s s :=
  ⟨rfl, h, h⟩

theorem Twins.view_eq (h : Twins contents s t) : s.view = t.view := by
  rw [h.eq_withCache]
  rfl

/-- Turning the cache on in one of them only keeps sessions twins. -/
theorem Twins.enableCache (h : Twins contents s t) : Twins contents s t.enableCache := by
  refine ⟨?_, h.sound_left, sound_enableCache h.sound_right⟩
  rw [h.eq_withCache]
  rfl

/-- So does a build in both. -/
theorem Twins.rebuild (h : Twins contents s t) (hd : DigestsTellApart contents)
    (hs : Bundle.analyzed s.options s.project ⊆ contents) :
    Twins contents s.rebuild t.rebuild := by
  obtain ⟨heq, hleft, hright⟩ := h
  have hbuilt : (buildWith t.cache s.options s.project).1 =
      (buildWith s.cache s.options s.project).1 :=
    (buildWith_fst hright hd hs).trans (buildWith_fst hleft hd hs).symm
  refine ⟨?_, sound_buildWith hleft hs, ?_⟩
  · rw [heq]
    simp only [Session.rebuild, hbuilt]
  · rw [heq]
    exact sound_buildWith hright hs

theorem Twins.of_project (h : Twins contents s t) (project : Project) :
    Twins contents { s with project } { t with project } := by
  refine ⟨?_, h.sound_left, h.sound_right⟩
  rw [h.eq_withCache]

/-- A step of both reports the same and keeps them twins. -/
theorem Twins.step (h : Twins contents s t) (hd : DigestsTellApart contents) (x : Step)
    (hs : Bundle.analyzed (s.step x).1.options (s.step x).1.project ⊆ contents) :
    (s.step x).2 = (t.step x).2 ∧ Twins contents (s.step x).1 (t.step x).1 := by
  have hproject : t.project = s.project := by rw [h.eq_withCache]
  cases x with
  | edit e =>
    have hreply : (s.step (.edit e)).2 = (t.step (.edit e)).2 := by
      simp only [Session.step, Session.edit, hproject]
    have hnext := h.of_project (s.project.edit e).1
    refine ⟨hreply, ?_⟩
    cases he : e.needsBuild (s.project.edit e).2 with
    | true =>
      simp only [Session.step, Session.edit, hproject, he, if_true] at hs ⊢
      exact hnext.rebuild hd hs
    | false =>
      simp only [Session.step, Session.edit, hproject, he, Bool.false_eq_true, if_false]
      exact hnext
  | replace project => exact ⟨rfl, (h.of_project project).rebuild hd hs⟩
  | enableCache =>
    refine ⟨rfl, ?_, sound_enableCache h.sound_left, sound_enableCache h.sound_right⟩
    show t.enableCache = _
    rw [h.eq_withCache]
    rfl
  | rebuild =>
    -- The reply tells the outcome of the build, which is the same.
    have hnext := h.rebuild hd hs
    refine ⟨?_, hnext⟩
    simp only [Session.step]
    rw [hnext.eq_withCache]
  | teardown =>
    refine ⟨rfl, ?_, h.sound_left, h.sound_right⟩
    show t.teardown = _
    rw [h.eq_withCache]
    rfl

/-- A run of twins in which only one of them turns its cache on, at the places marked by
    `none`, reports and shows the same at all other steps. -/
theorem Twins.trace_eq (hd : DigestsTellApart contents) {todo : List (Option Step)}
    (h : Twins contents s t) (hs : s.analyzed (todo.filterMap id) ⊆ contents) :
    s.trace (todo.filterMap id) =
      ((todo.zip (t.trace (todo.map (·.getD .enableCache)))).filter (·.1.isSome)).map (·.2) := by
  induction todo generalizing s t with
  | nil => rfl
  | cons x rest ih =>
    cases x with
    | none =>
      -- Only one of the twins makes this step, and what it reports is left out.
      have hrest := ih h.enableCache hs
      simpa [trace, Session.step] using hrest
    | some x =>
      have hcommon : (some x :: rest).filterMap id = x :: rest.filterMap id := rfl
      rw [hcommon, analyzed_cons, List.append_subset] at hs
      have hfirst := List.Subset.trans (analyzed_subset (s.step x).1 _) hs.2
      obtain ⟨hreply, hnext⟩ := h.step hd x hfirst
      have hrest := ih hnext hs.2
      simpa [hcommon, trace, hreply, hnext.view_eq] using hrest

/-- A session does not show whether its cache is on: turned on at the places marked by
    `none`, it leaves what every other step reports, and what is seen after it, as in
    the session without these steps. -/
theorem trace_eq_of_enableCache (project : Project) (options : Options)
    (todo : List (Option Step))
    (hd : DigestsTellApart ((ofProject project options).analyzed (todo.filterMap id))) :
    (ofProject project options).trace (todo.filterMap id) =
      ((todo.zip ((ofProject project options).trace (todo.map (·.getD .enableCache)))).filter
        (·.1.isSome)).map (·.2) := by
  have hsound : ∀ c, (ofProject project options).cache = some c →
      c.Sound ((ofProject project options).analyzed (todo.filterMap id)) := by
    intro c hc
    cases hc
  exact (Twins.refl hsound).trace_eq hd (List.Subset.refl _)

/-- A script that is stored under another key than its path. -/
def strayScript : Project :=
  ⟨⟨[("b.js", ⟨"a.js", "export default A;"⟩)], by decide⟩, "b.js", "index.html"⟩

/-- The cache is turned on before the script is stored once more under its own path,
    and again before the other is deleted. -/
theorem trace_eq_of_enableCache_strayScript :
    let todo := [none, some (.edit (.upsert "a.js" (some "export default B;"))), some .rebuild,
      none, some (.edit (.delete "b.js")), some .rebuild]
    DigestsTellApart ((ofProject strayScript {}).analyzed (todo.filterMap id)) ∧
      (ofProject strayScript {}).trace (todo.filterMap id) =
        ((todo.zip ((ofProject strayScript {}).trace (todo.map (·.getD .enableCache)))).filter
          (·.1.isSome)).map (·.2) := by
  intro todo
  have hd : DigestsTellApart ((ofProject strayScript {}).analyzed (todo.filterMap id)) := by
    decide +kernel
  exact ⟨hd, trace_eq_of_enableCache strayScript {} todo hd⟩

end Session

end LivePreview
