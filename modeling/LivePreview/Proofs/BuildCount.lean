/-
  LivePreview.Proofs.BuildCount

  Which steps of a session build, and what the others leave as it is.

  An edit that is refused leaves the whole session as it was (`edit_of_isRefusal`): what is
  stored, the cache, the surface and the last build.  `Step.builds` says from a step and its
  report whether it builds; the number of the build goes up by one then, whether the build
  succeeds or not, and stays otherwise (`generation_step`).  After a run the number is that
  of its steps that built (`generation_steps`).
-/

import LivePreview.Proofs.Session

namespace LivePreview

/-! ## Refusals -/

/-- The edit was not carried out, or removed nothing. -/
def Edit.Reply.isRefusal : Edit.Reply → Bool
  | .done => false
  | .carriedOut yes => !yes
  | .removed count => count == 0

theorem Edit.Reply.isRefusal_iff {reply : Edit.Reply} :
    reply.isRefusal = true ↔ reply = .carriedOut false ∨ reply = .removed 0 := by
  cases reply <;> simp [isRefusal]

/-- An edit is built unless it is refused; selecting a file never is. -/
theorem Edit.needsBuild_eq {e : Edit} (h : ∀ path, e ≠ .setActive path) (reply : Edit.Reply) :
    e.needsBuild reply = !reply.isRefusal := by
  cases e with
  | setActive path => exact absurd rfl (h path)
  | _ => cases reply <;> simp [needsBuild, Reply.isRefusal, bne]

namespace Session

/-- The step builds, by what it reports: always, never, or unless it was refused. -/
def Step.builds : Step → Reply → Bool
  | .edit (.upsert ..), _ | .edit (.setEntryDocument _), _ | .replace _, _ | .rebuild, _ => true
  | .edit (.setActive _), _ | .enableCache, _ | .teardown, _ => false
  | .edit _, .edited reply => !reply.isRefusal
  | .edit _, _ => false

variable {s : Session} {e : Edit}

/-- A refused edit leaves everything as it was. -/
theorem edit_of_isRefusal (h : (s.edit e).2.isRefusal = true) : (s.edit e).1 = s := by
  have hreply : (s.project.edit e).2.isRefusal = true := h
  have hsame : (s.project.edit e).1 = s.project :=
    Project.edit_eq_self (Edit.Reply.isRefusal_iff.mp hreply)
  -- Nothing is built either: selecting a file, which never is, cannot be refused.
  have hidle : e.needsBuild (s.project.edit e).2 = false := by
    rw [Edit.needsBuild_eq _ _, hreply, Bool.not_true]
    rintro path rfl
    cases hreply
  simp only [edit, hidle, Bool.false_eq_true, if_false, hsame]

/-! ## The number of the build -/

theorem generation_edit (s : Session) (e : Edit) :
    (s.edit e).1.generation =
      s.generation + if e.needsBuild (s.edit e).2 = true then 1 else 0 := by
  cases h : e.needsBuild (s.project.edit e).2 <;> simp [edit, h]

theorem builds_edit (s : Session) (e : Edit) :
    Step.builds (.edit e) (.edited (s.edit e).2) = e.needsBuild (s.edit e).2 := by
  cases e with
  | upsert | setEntryDocument | setActive => rfl
  | createFile | createFolder | delete | deleteFolder | rename =>
    rw [Edit.needsBuild_eq (by simp)]
    rfl

/-- A step that builds raises the number by one, every other step leaves it. -/
theorem generation_step (s : Session) (x : Step) :
    (s.step x).1.generation =
      s.generation + if x.builds (s.step x).2 = true then 1 else 0 := by
  cases x with
  | edit e =>
    have hbuilds : Step.builds (.edit e) (s.step (.edit e)).2 = e.needsBuild (s.edit e).2 :=
      builds_edit s e
    rw [hbuilds]
    exact generation_edit s e
  | replace | enableCache | rebuild | teardown => rfl

/-- The steps of a run, each with what it reports. -/
def outcomes (s : Session) : List Step → List (Step × Reply)
  | [] => []
  | x :: rest => (x, (s.step x).2) :: outcomes (s.step x).1 rest

/-- A run raises the number by one for each of its steps that build. -/
theorem generation_steps (s : Session) (todo : List Step) :
    (s.steps todo).generation =
      s.generation + (s.outcomes todo).countP fun x => x.1.builds x.2 := by
  induction todo generalizing s with
  | nil => rfl
  | cons x rest ih =>
    rw [steps_cons, ih, generation_step, outcomes, List.countP_cons, Nat.add_assoc,
      Nat.add_comm (List.countP _ _)]

/-- In every state that a session reaches: an edit that is refused changes nothing at all; a
    step raises the number of the build by one if it builds, and leaves it if it does not.
    The number is that of the steps so far that built, and one for the first build. -/
theorem refused_or_counted (project : Project) (options : Options) (todo : List Step) :
    let s := (ofProject project options).steps todo
    (∀ e : Edit, (s.edit e).2.isRefusal = true → (s.step (.edit e)).1 = s) ∧
    (∀ x : Step, (s.step x).1.generation =
      if x.builds (s.step x).2 = true then s.generation + 1 else s.generation) ∧
    s.generation =
      1 + ((ofProject project options).outcomes todo).countP fun x => x.1.builds x.2 := by
  intro s
  refine ⟨fun e he => edit_of_isRefusal he, fun x => ?_, ?_⟩
  · rw [generation_step]
    split <;> rfl
  · have hopened : (ofProject project options).generation = 1 := rfl
    rw [← hopened]
    exact generation_steps (ofProject project options) todo

/-- A file is moved onto itself, which is built; a missing one is deleted, which is not; and
    the last build fails, as the only script becomes blank. -/
theorem refused_or_counted_blankScript :
    let todo := [.enableCache, .edit (.rename "a.js" "a.js"), .edit (.delete "b.js"), .teardown,
      .edit (.upsert "a.js" (some " "))]
    let s := (ofProject oneScript {}).steps todo
    (s.edit (.deleteFolder "a.js")).2.isRefusal = true ∧
      (s.step (.edit (.deleteFolder "a.js"))).1 = s ∧ s.generation = 3 := by
  intro todo s
  obtain ⟨hsame, -, hcount⟩ := refused_or_counted oneScript {} todo
  have hrefused : (s.edit (.deleteFolder "a.js")).2.isRefusal = true := by decide +kernel
  have hbuilt : ((ofProject oneScript {}).outcomes todo).countP (fun x => x.1.builds x.2) = 2 := by
    decide +kernel
  refine ⟨hrefused, hsame _ hrefused, ?_⟩
  rw [hcount, hbuilt]

end Session

end LivePreview
