/-
  LivePreview.Session

  A project that is being worked on, with its preview.  Every change to the files
  or to the choice of the entry document builds the preview anew; a build that
  fails shows nothing, and what was shown before stays.

  Nothing is carried from one build to the next but the cache, if it is on.
-/

import LivePreview.Cache
import LivePreview.Preview
import LivePreview.Project.Edit
import LivePreview.Surface.Runner
import LivePreview.Tree

namespace LivePreview

/-- An edit changes what a build reads, so that the preview has to be built
    again.  Selecting a file does not. -/
def Edit.needsBuild : Edit → Edit.Reply → Bool
  | .setActive _, _ => false
  | _, .done => true
  | _, .carriedOut yes => yes
  | _, .removed count => count != 0

/-- A project in work. -/
structure Session where
  project : Project
  options : Options
  cache : Option Cache
  runner : Runner
  /-- The number of builds so far. -/
  generation : Nat
  /-- The result of the last build. -/
  built : Except BuildError Preview

namespace Session

/-! ## Building -/

/-- Builds a project, with a cache if there is one. -/
def buildWith (cache : Option Cache) (options : Options) (project : Project) :
    Except BuildError Preview × Option Cache :=
  match cache with
  | none => (Preview.build options project, none)
  | some cache =>
    let (bundle, cache) := (cache.retain project.paths).build options project
    (bundle.map (Preview.ofBundle options project), some cache)

/-- Shows the result of a build, if it is a preview. -/
def shown (runner : Runner) (generation : Nat) : Except BuildError Preview → Runner
  | .ok preview => (runner.present generation preview.document.html).2
  | .error _ => runner

/-- Builds the preview and shows it. -/
def rebuild (s : Session) : Session :=
  let (built, cache) := buildWith s.cache s.options s.project
  let generation := s.generation + 1
  { s with cache, generation, built, runner := shown s.runner generation built }

/-- Opens a project and builds it for the first time. -/
def ofProject (project : Project) (options : Options) : Session :=
  rebuild
    { project, options
      cache := none
      runner := .ofScheme options.handleScheme
      generation := 0
      built := .error .noScriptFiles }

/-! ## What is seen -/

/-- The preview of the last build, if it succeeded. -/
def preview? (s : Session) : Option Preview :=
  match s.built with
  | .ok preview => some preview
  | .error _ => none

/-- The text for the failure of the last build. -/
def diagnostic? (s : Session) : Option String :=
  match s.built with
  | .ok _ => none
  | .error e => some e.message

/-- The folder view of the project. -/
def tree (s : Session) : List Node := Tree.ofPaths s.project.paths

/-! ## Steps -/

/-- What can be done in a session. -/
inductive Step where
  | edit (e : Edit)
  | replace (project : Project)
  | enableCache
  | rebuild
  | teardown

/-- What a step reports. -/
inductive Reply where
  | edited (reply : Edit.Reply)
  /-- The number of the build, or why it failed. -/
  | built (result : Except BuildError Nat)
  | done

/-- Edits the project. -/
def edit (s : Session) (e : Edit) : Session × Edit.Reply :=
  let (project, reply) := s.project.edit e
  let edited := { s with project }
  (if e.needsBuild reply then edited.rebuild else edited, reply)

/-- Takes up another project. -/
def replace (s : Session) (project : Project) : Session := rebuild { s with project }

/-- Turns the cache on; one that is on is kept. -/
def enableCache (s : Session) : Session := { s with cache := some (s.cache.getD .empty) }

/-- Releases what is shown.  The next build shows its preview again. -/
def teardown (s : Session) : Session := { s with runner := s.runner.teardown }

/-- Carries out a step. -/
def step (s : Session) : Step → Session × Reply
  | .edit e =>
    let (t, reply) := s.edit e
    (t, .edited reply)
  | .replace project => (s.replace project, .done)
  | .enableCache => (s.enableCache, .done)
  | .rebuild =>
    let t := s.rebuild
    (t, .built (t.built.map fun _ => t.generation))
  | .teardown => (s.teardown, .done)

/-- The session after some steps. -/
def steps (s : Session) (todo : List Step) : Session := todo.foldl (fun t x => (t.step x).1) s

@[simp] theorem generation_rebuild (s : Session) : s.rebuild.generation = s.generation + 1 := rfl

/-- The options never change. -/
theorem options_step (s : Session) (x : Step) : (s.step x).1.options = s.options := by
  cases x with
  | edit e =>
    simp only [step, edit]
    split <;> rfl
  | replace | enableCache | rebuild | teardown => rfl

end Session

end LivePreview
