import EclipseProject.Proofs.Setup.Calls
import Mathlib.Data.List.Infix

/-!
# What a dry run tells of the real one

Bazel answers the same in both, so they differ in what only the real run does: it builds, and it writes. A real run
that gets past that goes where the dry run goes.
-/

namespace EclipseProject.Setup

/-- How a real run ends beside a dry one of the same steps. -/
inductive Beside (real dry : Trail) : Prop
  | done (hr : real.failure = none) (hd : dry.failure = none) (h : real.done = dry.done)
      (hg : real.progress = dry.progress) : Beside real dry
  | failed {st : Step} {e : Error} {s s' : Session} (hr : real.failure = some (st, e, s))
      (hd : dry.failure = some (st, e, s')) (h : real.done = dry.done) : Beside real dry
  | refused {st : Step} {e : FileError} {s : Session} (hr : real.failure = some (st, .file e, s))
      (h : real.done ++ [st] <+: dry.done) : Beside real dry

variable {b : Bazel} {table : Bazel.Outcomes} {c : Config} {o : Options} {name : Option String} {g g' : Progress}
  {s s' : Session} {st : Step} {sts : List Step} {real dry : Trail}

theorem Beside.after (h : Beside real dry) (sts : List Step) : Beside (real.after sts) (dry.after sts) := by
  cases h with
  | done hr hd h hg => exact .done hr hd (congrArg (sts ++ ·) h) hg
  | failed hr hd h => exact .failed hr hd (congrArg (sts ++ ·) h)
  | @refused st e s hr h =>
    refine .refused hr ?_
    have hp := (List.prefix_append_right_inj sts).mpr h
    simpa [Trail.after, List.append_assoc] using hp

/-- A real run tries nothing that the dry run does not try. -/
theorem Beside.tried (h : Beside real dry) : real.tried <+: dry.tried := by
  cases h with
  | done hr hd h hg => simp [Trail.tried, hr, hd, h]
  | failed hr hd h => simp [Trail.tried, hr, hd, h]
  | refused hr h =>
    have hd : dry.done <+: dry.tried := List.prefix_append _ _
    simpa [Trail.tried, hr] using h.trans hd

section
variable {rr rd : Except Error Progress} {sr sd : Session}

theorem ask_beside (hb : b.runner.AnswersFrom table) {q : Query}
    (hr : (perform b c (really name) g (.ask q)).on s = (rr, sr))
    (hd : (perform b c (dryly name) g (.ask q)).on s' = (rd, sd)) : rr = rd := by
  have h₁ := result_perform_ask (c := c) (o := really name) (g := g) (s := s) hb q
  have h₂ := result_perform_ask (c := c) (o := dryly name) (g := g) (s := s') hb q
  rw [hr] at h₁
  rw [hd] at h₂
  exact h₁.trans h₂.symm

theorem place_beside {i : Item} (hr : (perform b c (really name) g (.place i)).on s = (rr, sr))
    (hd : (perform b c (dryly name) g (.place i)).on s' = (rd, sd)) :
    (∃ g', rr = .ok g' ∧ rd = .ok g') ∨ (∃ e, rr = .error (.file e)) ∧ ∃ g', rd = .ok g' := by
  rw [on_perform_place_of_dryRun rfl] at hd
  rw [on_perform_place rfl] at hr
  cases hd
  dsimp only at hr
  split at hr
  · cases hr
    refine Or.inl ⟨_, rfl, ?_⟩
    cases i <;> rfl
  · cases hr
    exact Or.inr ⟨⟨_, rfl⟩, _, rfl⟩

end

theorem follow_beside (hb : b.runner.AnswersFrom table) (hst : ∀ st ∈ sts, ∀ x, st ≠ .build x) :
    Beside (follow b c (really name) sts g s) (follow b c (dryly name) sts g s') := by
  -- as long as both runs get on they have learnt and staged the same
  induction sts generalizing g s s' with
  | nil => exact .done rfl rfl rfl rfl
  | cons st sts ih =>
    have hrest : ∀ x ∈ sts, ∀ y, x ≠ .build y := fun x hx => hst x (by simp [hx])
    cases hd : (perform b c (dryly name) g st).on s' with
    | mk rd sd =>
    cases hr : (perform b c (really name) g st).on s with
    | mk rr sr =>
    have hboth (g' : Progress) (h₁ : rr = .ok g') (h₂ : rd = .ok g') :
        Beside (follow b c (really name) (st :: sts) g s) (follow b c (dryly name) (st :: sts) g s') := by
      subst h₁ h₂
      rw [follow_cons_ok hd, follow_cons_ok hr]
      exact (ih hrest).after [st]
    cases st with
    | build x => exact absurd rfl (hst _ (by simp) x)
    | ask q =>
      have h := ask_beside hb hr hd
      subst h
      cases rr with
      | ok g' => exact hboth g' rfl rfl
      | error e =>
        rw [follow_cons_error hd, follow_cons_error hr]
        exact .failed rfl rfl rfl
    | place i =>
      obtain ⟨g', h₁, h₂⟩ | ⟨⟨e, rfl⟩, g', rfl⟩ := place_beside hr hd
      · exact hboth g' h₁ h₂
      · rw [follow_cons_ok hd, follow_cons_error hr]
        refine .refused rfl ?_
        simp

/-! ## The whole run -/

/-- Either the real run fails to build, or it goes beside the dry run from there. -/
inductive Parallel (b : Bazel) (table : Bazel.Outcomes) (c : Config) (real dry : Trail) : Prop
  | failed {st : Step} {e : Error} {s : Session} (hf : real.failure = some (st, e, s)) (he : BuildFails b table c e)
      (ht : real.tried <+: builds c) : Parallel b table c real dry
  | beside (h : Beside real (dry.after (builds c))) : Parallel b table c real dry

theorem trail_parallel (hb : b.runner.AnswersFrom table) (c : Config) (name : Option String) (s s' : Session) :
    Parallel b table c (trail b c (really name) s) (trail b c (dryly name) s') := by
  have hsteps : ∀ st ∈ steps, ∀ x, st ≠ .build x := by simp [steps]
  rw [trail_really rfl]
  cases hf : (follow b c (really name) (builds c) .start s).failure with
  | none =>
    rw [follow_append_of_done hf, builds, progress_builds]
    exact .beside ((follow_beside hb hsteps).after _)
  | some f =>
    obtain ⟨st, e, s₁⟩ := f
    rw [follow_append_of_failure (by simp [hf])]
    exact .failed hf (buildFails_of_failure hb hf) (tried_follow _ _ _).1

section
variable (h : Parallel b table c real dry)
include h

theorem dry_success {w : Workspace} (hw : real.result (really name) = .ok w) :
    ∃ w', dry.result (dryly name) = .ok w' ∧ w'.root = w.root ∧ w'.staged = w.staged := by
  cases h with
  | failed hf he ht => simp [Trail.result, hf] at hw
  | beside h =>
    cases h with
    | done hr hd h hg =>
      have hd : dry.failure = none := hd
      have hg : real.progress = dry.progress := hg
      refine ⟨dry.progress.workspace (dryly name), by simp [Trail.result, hd], ?_⟩
      simp only [Trail.result, hr, Except.ok.injEq] at hw
      subst hw
      simp [Progress.workspace, hg]
    | failed hr hd h => simp [Trail.result, hr] at hw
    | refused hr h => simp [Trail.result, hr] at hw

theorem real_failure {e : Error} (hd : dry.failure = none) (he : real.result (really name) = .error e) :
    BuildFails b table c e ∨ ∃ f, e = .file f := by
  obtain ⟨st, s, hf⟩ := failure_of_result he
  cases h with
  | failed hf' hb ht =>
    cases hf.symm.trans hf'
    exact Or.inl hb
  | beside h =>
    cases h with
    | done hr hd' h hg => cases hf.symm.trans hr
    | failed hr hd' h => cases hd.symm.trans hd'
    | @refused st' f s' hr h =>
      cases hf.symm.trans hr
      exact Or.inr ⟨f, rfl⟩

/-- Where the dry run fails, the real run fails in the same way or before. -/
theorem real_failure_of_dry {e : Error} (ht : dry.tried <+: steps) (he : dry.result (dryly name) = .error e) :
    ∃ e', real.result (really name) = .error e' ∧ (e' = e ∨ BuildFails b table c e' ∨
      (∃ f, e' = .file f) ∧ ∃ st between rest, dry.tried = dry.done ++ [st] ∧
        script c (really name) = real.tried ++ between ++ st :: rest) := by
  obtain ⟨st, s, hf⟩ := failure_of_result he
  cases h with
  | @failed _ e' _ hf' hb _ => exact ⟨e', result_of_failure hf', Or.inr (Or.inl hb)⟩
  | beside h =>
    cases h with
    | done hr hd h hg => cases hf.symm.trans hd
    | failed hr hd h =>
      cases hf.symm.trans hd
      exact ⟨e, result_of_failure hr, Or.inl rfl⟩
    | @refused st' f s' hr h =>
      have hd : dry.tried = dry.done ++ [st] := by simp [Trail.tried, hf]
      have hreal : real.tried = real.done ++ [st'] := by simp [Trail.tried, hr]
      obtain ⟨rest, hrest⟩ := hd ▸ ht
      obtain ⟨between, hbetween⟩ := h
      refine ⟨.file f, result_of_failure hr, Or.inr (Or.inr ⟨⟨f, rfl⟩, st, between, rest, hd, ?_⟩)⟩
      have hbetween : real.done ++ [st'] ++ between = builds c ++ dry.done := hbetween
      rw [hreal, hbetween, script, ← hrest]
      simp [really]

end

/-! ## Queries -/

def isInfo : Attempt → Bool
  | .call i => i.arguments.head? == some "info"
  | _ => false

def Step.asks (b : Bazel) : Step → List Attempt
  | .ask q => [.call (b.invocation ["info", q.key])]
  | _ => []

theorem infos_attempts (a : Answers) (st : Step) : (st.attempts b c o a).filter isInfo = st.asks b := by
  cases st with
  | build st => simp [Step.attempts, Step.asks, isInfo, Bazel.invocation]
  | ask q => simp [Step.attempts, Step.asks, isInfo, Bazel.invocation]
  | place i =>
    have hp (p : Path) (content : Option String) : isInfo (.place p content) = false := by cases content <;> rfl
    by_cases ho : o.dryRun = true <;> simp [Step.attempts, Step.asks, ho, hp]

theorem infos_trail (b : Bazel) (c : Config) (o : Options) (d : Disk) :
    (trail b c o (.ofDisk d)).session.attempts.filter isInfo =
      (trail b c o (.ofDisk d)).tried.flatMap (Step.asks b) := by
  rw [attempts_trail]
  simp only [Session.ofDisk, List.nil_append, List.filter_flatMap, infos_attempts]

theorem asks_builds (c : Config) : (builds c).flatMap (Step.asks b) = [] := by
  refine List.flatMap_eq_nil_iff.mpr fun st hst => ?_
  obtain ⟨x, _, rfl⟩ := List.mem_map.mp hst
  rfl

theorem infos_real (hb : b.runner.AnswersFrom table) (c : Config) (name : Option String) (d : Disk) :
    (trail b c (really name) (.ofDisk d)).session.attempts.filter isInfo <+:
      (trail b c (dryly name) (.ofDisk d)).session.attempts.filter isInfo := by
  rw [infos_trail, infos_trail]
  cases trail_parallel hb c name (.ofDisk d) (.ofDisk d) with
  | failed hf he ht =>
    have h := ht.flatMap (Step.asks b)
    rw [asks_builds, List.prefix_nil] at h
    simp [h]
  | beside hbeside =>
    have h := hbeside.tried.flatMap (Step.asks b)
    simpa [Trail.after, Trail.tried, asks_builds] using h

/-! ## What the dry run tells -/

theorem dry_attempts (b : Bazel) (c : Config) (name : Option String) (d : Disk) :
    ∀ x ∈ (trail b c (dryly name) (.ofDisk d)).session.attempts,
      ∃ q : Query, x = .call (b.invocation ["info", q.key]) := by
  intro x hx
  rw [attempts_trail] at hx
  obtain ⟨st, hst, hx⟩ := List.mem_flatMap.mp hx
  have hs : st ∈ steps := (tried_trail b c (dryly name) (.ofDisk d)).1.subset hst
  cases st with
  | build y => simp [steps] at hs
  | ask q => exact ⟨q, by simpa [Step.attempts] using hx⟩
  | place i => simp [Step.attempts, dryly] at hx

structure Foretells (b : Bazel) (table : Bazel.Outcomes) (c : Config) (name : Option String) (d : Disk)
    (dry real : Trail) : Prop where
  dryRun : (run b c (dryly name)).on (.ofDisk d) = (dry.result (dryly name), dry.session)
  realRun : (run b c (really name)).on (.ofDisk d) = (real.result (really name), real.session)
  asksOnly : dry.session.disk = d ∧
    ∀ x ∈ dry.session.attempts, ∃ q : Query, x = .call (b.invocation ["info", q.key])
  success : ∀ w, real.result (really name) = .ok w →
    ∃ w', dry.result (dryly name) = .ok w' ∧ w'.root = w.root ∧ w'.staged = w.staged
  failure : ∀ e, dry.result (dryly name) = .error e → ∃ e', real.result (really name) = .error e' ∧
    (e' = e ∨ BuildFails b table c e' ∨
      (∃ f, e' = .file f) ∧ ∃ st between rest, dry.tried = dry.done ++ [st] ∧
        script c (really name) = real.tried ++ between ++ st :: rest)
  failureOfReal : ∀ w e, dry.result (dryly name) = .ok w → real.result (really name) = .error e →
    BuildFails b table c e ∨ ∃ f, e = .file f
  queries : real.session.attempts.filter isInfo <+: dry.session.attempts.filter isInfo

/-- **A dry run foretells the real one.** It only asks. Where the real run succeeds it stages the same, and where it
fails the real run fails as well: alike, in a build, or in writing a file at an earlier step. -/
theorem dry_run_foretells (hb : b.runner.AnswersFrom table) (c : Config) (name : Option String) (d : Disk) :
    Foretells b table c name d (trail b c (dryly name) (.ofDisk d)) (trail b c (really name) (.ofDisk d)) := by
  have hdisk : ∀ st ∈ script c (dryly name), (dryly name).dryRun = true ∨ st.item? = none := fun _ _ => Or.inl rfl
  have h := trail_parallel hb c name (.ofDisk d) (.ofDisk d)
  have htried := (tried_trail b c (dryly name) (.ofDisk d)).1
  exact {
    dryRun := on_run ..
    realRun := on_run ..
    asksOnly := ⟨(disk_follow hb.toLeavesDisk hdisk).1, dry_attempts b c name d⟩
    success := fun w hw => dry_success h hw
    failure := fun e he => real_failure_of_dry h htried he
    failureOfReal := fun w e hd he => real_failure h (failure_of_ok hd).1 he
    queries := infos_real hb c name d }

/-- A directory in the place of the project file stops the real run; the dry run goes on to ask in vain. -/
theorem dry_run_foretells_refusal :
    let t : Bazel.AnswerTable :=
      ⟨[("workspace", .ok (Utf8.encode "/\n")), ("bazel-genfiles", .ok (Utf8.encode "/g\n"))], [], []⟩
    let b : Bazel := ⟨"bazel", t.runner⟩
    let d := Disk.empty.put projectFile.pieces .directory
    let dry := trail b .default (dryly none) (.ofDisk d)
    let real := trail b .default (really none) (.ofDisk d)
    b.runner.AnswersFrom t.outcomes ∧ Foretells b t.outcomes .default none d dry real ∧
      dry.result (dryly none) = .error (.bazel (.exitStatus "bazel info bazel-bin" Bazel.unknownKey)) ∧
      real.result (really none) = .error (.file ⟨.write, .ofString "/.project", .isDirectory⟩) := by
  intro t b d dry real
  have hb : b.runner.AnswersFrom t.outcomes := t.answersFrom_runner
  exact ⟨hb, dry_run_foretells hb .default none d, rfl, rfl⟩

end EclipseProject.Setup
