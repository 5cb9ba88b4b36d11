import EclipseProject.Process.Machine
import EclipseProject.Proofs.Setup.Calls

/-!
# What a run shows

The output of a query is captured and that of a build is passed on, so a run shows what its builds print, in their
order, up to and including the one that fails. A dry run builds nothing and shows nothing.
-/

namespace EclipseProject

/-- What is printed by processes started one after the other, until one cannot be started or fails. -/
def Launcher.printed (l : Launcher) (calls : List Call) (d : Disk) : List Bazel.Invocation → List (List UInt8)
  | [] => []
  | i :: is =>
    match l.launch calls d i with
    | .error _ => []
    | .ok (ending, d') =>
      ending.output :: if ending.status.success then l.printed (calls ++ [⟨i, true⟩]) d' is else []

/-- Bazel, run by the launcher. -/
def Launcher.bazel (l : Launcher) (program : String) : Bazel := ⟨program, l.runner⟩

namespace Setup

def buildCalls (b : Bazel) (sts : List BuildStep) : List Bazel.Invocation :=
  sts.map fun st => b.invocation ("build" :: st.2)

variable {l : Launcher} {program : String} {c : Config} {o : Options} {g : Progress} {s : Session} {st : Step}
  {sts : List Step}

/-! ## Steps that show nothing -/

theorem shown_capture (l : Launcher) (calls : List Call) (d : Disk) (i : Bazel.Invocation) :
    (l.runner.capture calls d i).shown = [] := by
  simp only [Launcher.runner, Launcher.capture]
  split <;> rfl

theorem shown_info (l : Launcher) (program key : String) (s : Session) :
    (((l.bazel program).info key).on s).2.shown = s.shown := by
  have h : ((l.bazel program).runner.capture s.calls s.disk ((l.bazel program).invocation ["info", key])).shown = [] :=
    shown_capture ..
  rw [Bazel.on_info]
  dsimp only
  split
  · simp [Bazel.Reply.leave, h, Session.attempting]
  · split <;> simp [Bazel.Reply.leave, h, Session.attempting]

theorem shown_perform (l : Launcher) (program : String) (c : Config) (o : Options) (g : Progress) (s : Session)
    (hst : ∀ x, st ≠ .build x) : ((perform (l.bazel program) c o g st).on s).2.shown = s.shown := by
  cases st with
  | build x => exact absurd rfl (hst x)
  | ask q =>
    have h := shown_info l program q.key s
    rw [on_perform_ask]
    split
    · next v s' hi =>
      rw [hi] at h
      unfold announce
      split <;> exact h
    · next e s' hi =>
      rw [hi] at h
      exact h
  | place i =>
    cases ho : o.dryRun with
    | true => rw [on_perform_place_of_dryRun ho]
    | false =>
      rw [on_perform_place ho]
      dsimp only
      split <;> rfl

theorem shown_follow (hsts : ∀ st ∈ sts, ∀ x, st ≠ .build x) :
    (follow (l.bazel program) c o sts g s).session.shown = s.shown := by
  induction sts generalizing g s with
  | nil => rfl
  | cons st sts ih =>
    have hst := shown_perform l program c o g s (hsts st (by simp))
    cases h : (perform (l.bazel program) c o g st).on s with
    | mk r s' =>
      rw [h] at hst
      cases r with
      | error e =>
        rw [follow_cons_error h]
        exact hst
      | ok g' =>
        rw [follow_cons_ok h]
        exact (ih fun x hx => hsts x (List.mem_cons_of_mem _ hx)).trans hst

theorem shown_steps : (follow (l.bazel program) c o steps g s).session.shown = s.shown := by
  refine shown_follow fun st hst x => ?_
  rintro rfl
  simp [steps] at hst

/-! ## Builds -/

section
variable (st : BuildStep) {i : Bazel.Invocation} (hi : (l.bazel program).invocation ("build" :: st.2) = i)
include hi

theorem build_unstarted {cause : SystemError} (h : l.launch s.calls s.disk i = .error cause) :
    ∃ e s', (perform (l.bazel program) c o g (.build st)).on s = (.error e, s') ∧ s'.shown = s.shown := by
  have hr : (l.bazel program).runner.stream s.calls s.disk i = ⟨.error (.spawn i.program cause), [], s.disk⟩ := by
    simp [Launcher.bazel, Launcher.runner, Launcher.stream, h]
  rw [on_perform_build, hi]
  simp only [hr]
  exact ⟨_, _, rfl, List.append_nil _⟩

variable {ending : Ending} {d' : Disk} (h : l.launch s.calls s.disk i = .ok (ending, d'))
include h

theorem build_failed (hs : ending.status.success = false) :
    ∃ e s', (perform (l.bazel program) c o g (.build st)).on s = (.error e, s') ∧
      s'.shown = s.shown ++ ending.output := by
  have hr : (l.bazel program).runner.stream s.calls s.disk i =
      ⟨.error (.exitStatus i.commandLine ending.status), ending.output, d'⟩ := by
    simp [Launcher.bazel, Launcher.runner, Launcher.stream, Launcher.verdict, h, hs]
  rw [on_perform_build, hi]
  simp only [hr]
  exact ⟨_, _, rfl, rfl⟩

theorem build_done (hs : ending.status.success = true) :
    ∃ s', (perform (l.bazel program) c o g (.build st)).on s = (.ok g, s') ∧ s'.disk = d' ∧
      s'.calls = s.calls ++ [⟨i, true⟩] ∧ s'.shown = s.shown ++ ending.output := by
  have hr : (l.bazel program).runner.stream s.calls s.disk i = ⟨.ok (), ending.output, d'⟩ := by
    simp [Launcher.bazel, Launcher.runner, Launcher.stream, Launcher.verdict, h, hs]
  rw [on_perform_build, hi]
  simp only [hr]
  exact ⟨_, rfl, rfl, rfl, rfl⟩

end

/-- Each build adds what its process prints, and the next one starts on what it left. -/
theorem shown_builds (sts : List BuildStep) : (follow (l.bazel program) c o (sts.map .build) g s).session.shown =
    s.shown ++ (l.printed s.calls s.disk (buildCalls (l.bazel program) sts)).flatten := by
  induction sts generalizing s with
  | nil => exact (List.append_nil _).symm
  | cons st sts ih =>
    rw [List.map_cons, buildCalls, List.map_cons, ← buildCalls, Launcher.printed]
    cases hl : l.launch s.calls s.disk ((l.bazel program).invocation ("build" :: st.2)) with
    | error cause =>
      obtain ⟨e, s', hp, hshown⟩ := build_unstarted (c := c) (o := o) (g := g) st rfl hl
      rw [follow_cons_error hp]
      exact hshown.trans (List.append_nil _).symm
    | ok x =>
      obtain ⟨ending, d'⟩ := x
      cases hs : ending.status.success with
      | false =>
        obtain ⟨e, s', hp, hshown⟩ := build_failed (c := c) (o := o) (g := g) st rfl hl hs
        rw [follow_cons_error hp]
        refine hshown.trans ?_
        simp [hs]
      | true =>
        obtain ⟨s', hp, hdisk, hcalls, hshown⟩ := build_done (c := c) (o := o) (g := g) st rfl hl hs
        rw [follow_cons_ok hp]
        refine (ih (s := s')).trans ?_
        simp [hs, hdisk, hcalls, hshown]

/-! ## Runs -/

theorem shown_run_of_dryRun (l : Launcher) (program : String) (c : Config) (s : Session) (ho : o.dryRun = true) :
    ((run (l.bazel program) c o).on s).2.shown = s.shown := by
  rw [on_run, trail, script, opening, ho]
  exact shown_steps

/-- **A run shows what its builds print.** -/
theorem shown_run (l : Launcher) (program : String) (c : Config) (s : Session) (ho : o.dryRun = false) :
    ((run (l.bazel program) c o).on s).2.shown =
      s.shown ++ (l.printed s.calls s.disk (buildCalls (l.bazel program) c.build.steps)).flatten := by
  rw [on_run, trail_really ho, ← shown_builds (c := c) (o := o) (g := .start), ← builds]
  cases hf : (follow (l.bazel program) c o (builds c) .start s).failure with
  | some f => rw [follow_append_of_failure (by simp [hf])]
  | none =>
    rw [follow_append_of_done hf]
    have hreached : (follow (l.bazel program) c o (builds c) .start s).session =
        (follow (l.bazel program) c o (builds c) .start s).reached := by simp [Trail.session, hf]
    rw [hreached]
    exact shown_steps

/-! ## The preview of a run -/

variable {b : Bazel} {colored : Bool} {t : Session}

theorem on_runShown_of_error {e : Error} (h : (run b c o).on s = (.error e, t)) :
    (runShown colored b c o).on s = (.error e, t) := by
  simp [runShown, h]

theorem on_runShown_of_ok {w : Workspace} (h : (run b c o).on s = (.ok w, t)) : (runShown colored b c o).on s =
    let preview := if o.dryRun then Utf8.encode (Staging.preview colored w.staged w.root) else []
    (.ok w, { t with shown := t.shown ++ preview }) := by
  cases ho : o.dryRun <;> simp [runShown, h, ho, Except.map]

end Setup

end EclipseProject
