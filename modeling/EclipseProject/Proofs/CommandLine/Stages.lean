import EclipseProject.CommandLine.Run
import EclipseProject.Proofs.CommandLine.Rejecting
import EclipseProject.Proofs.Config.Meaning
import EclipseProject.Proofs.Setup.Output
import EclipseProject.Proofs.Setup.RawLines

/-!
# The stages of a run of the command

Arguments, configuration and setting up come one after the other, and a stage that fails keeps the next one from
starting: nothing was done by then but what the log tells. The last stage decides on the exit code, and what is shown
is what its builds print or the preview of a dry run that succeeds.
-/

namespace EclipseProject

/-- Bazel was not called and nothing was tried or shown. Only the log may have grown. -/
structure Session.Idle (s t : Session) : Prop where
  disk : t.disk = s.disk
  calls : t.calls = s.calls
  attempts : t.attempts = s.attempts
  shown : t.shown = s.shown

theorem Config.idle_load (explicit : Option Path) (dir : Path) (s : Session) :
    s.Idle ((load explicit dir).on s).2 := by
  cases explicit with
  | some path =>
    rw [load_some]
    exact ⟨rfl, rfl, rfl, rfl⟩
  | none =>
    cases h : s.disk.isFile (candidate dir) with
    | true =>
      rw [load_none_of_isFile h]
      exact ⟨rfl, rfl, rfl, rfl⟩
    | false =>
      rw [load_none_of_not_isFile h]
      exact ⟨rfl, rfl, rfl, rfl⟩

namespace CommandLine

variable {r : Bazel.Runner} {l : Launcher} {colored : Bool} {a : Arguments} {file : Option String} {c : Config}
  {o : Setup.Options} {s t : Session}

/-! ## From the arguments to the configuration -/

def load (file : Option String) : Action Config.Error Config := do
  Action.note .verboseMode
  Config.load (file.map .ofString) configurationDirectory

theorem idle_load (file : Option String) (s : Session) : s.Idle ((load file).on s).2 := by
  have h := Config.idle_load (file.map .ofString) configurationDirectory
    { s with log := s.log ++ [.verboseMode] }
  simp only [load, Action.on_bind, Action.on_note]
  exact ⟨h.disk, h.calls, h.attempts, h.shown⟩

theorem on_execute_of_error {e : Config.Error} (h : (load a.configuration).on s = (.error e, t)) :
    (execute r colored a).on s = (.error (.config e), t) := by
  simp only [load, Action.on_bind, Action.on_note] at h
  simp [execute, h]

theorem on_execute_of_ok (h : (load a.configuration).on s = (.ok c, t)) : (execute r colored a).on s =
    let ran := (Setup.runShown colored ⟨c.bazel, r⟩ c a.options).on t
    ((ran.1.mapError .setup).map fun _ => (), ran.2) := by
  simp only [load, Action.on_bind, Action.on_note] at h
  simp only [execute, Action.on_bind, Action.on_note, Action.on_wrap, h, Action.mapError_ok]
  cases (Setup.runShown colored ⟨c.bazel, r⟩ c a.options).on t with
  | mk x u => cases x <;> rfl

/-! ## Setting up -/

/-- What was run set up the workspace as `Setup.run` does in the session, and showed this much. -/
structure SetsUp (l : Launcher) (colored : Bool) (c : Config) (o : Setup.Options) (s : Session)
    (ran : Except Failure Unit × Session) : Prop where
  succeeds : exitCode ran.1 = 0 ↔ ((Setup.run (l.bazel c.bazel) c o).on s).1.isOk = true
  record : ((Setup.runShown colored (l.bazel c.bazel) c o).on s).1 = ((Setup.run (l.bazel c.bazel) c o).on s).1
  disk : ran.2.disk = ((Setup.run (l.bazel c.bazel) c o).on s).2.disk
  calls : ran.2.calls = ((Setup.run (l.bazel c.bazel) c o).on s).2.calls
  attempts : ran.2.attempts = ((Setup.run (l.bazel c.bazel) c o).on s).2.attempts
  builds : o.dryRun = false → ran.2.shown =
    s.shown ++ (l.printed s.calls s.disk (Setup.buildCalls (l.bazel c.bazel) c.build.steps)).flatten
  nothing : ∀ e, o.dryRun = true → ((Setup.run (l.bazel c.bazel) c o).on s).1 = .error e → ran.2.shown = s.shown
  preview : ∀ w, o.dryRun = true → ((Setup.run (l.bazel c.bazel) c o).on s).1 = .ok w → ran.2.shown =
    s.shown ++ Utf8.encode (Staging.legend colored ++ Staging.banner colored ++
      (Staging.Tree.ofRecord w.staged w.root).draw colored)

theorem setsUp_of_error {e : Setup.Error} (h : (Setup.run (l.bazel c.bazel) c o).on s = (.error e, t)) :
    SetsUp l colored c o s (.error (.setup e), t) := by
  have hreally := Setup.shown_run l c.bazel c s (o := o)
  have hdry := Setup.shown_run_of_dryRun l c.bazel c s (o := o)
  rw [h] at hreally hdry
  constructor
  case succeeds => simp [h, exitCode, Failure.exitCode, Except.isOk, Except.toBool]
  case record => rw [Setup.on_runShown_of_error h, h]
  case disk => rw [h]
  case calls => rw [h]
  case attempts => rw [h]
  case builds => exact hreally
  case nothing => exact fun _ ho _ => hdry ho
  case preview => simp [h]

theorem setsUp_of_ok {w : Workspace} (h : (Setup.run (l.bazel c.bazel) c o).on s = (.ok w, t)) :
    let preview := if o.dryRun then Utf8.encode (Staging.preview colored w.staged w.root) else []
    SetsUp l colored c o s (.ok (), { t with shown := t.shown ++ preview }) := by
  intro preview
  have hreally := Setup.shown_run l c.bazel c s (o := o)
  have hdry := Setup.shown_run_of_dryRun l c.bazel c s (o := o)
  rw [h] at hreally hdry
  constructor
  case succeeds => simp [h, exitCode, Except.isOk, Except.toBool]
  case record => rw [Setup.on_runShown_of_ok h, h]
  case disk => rw [h]
  case calls => rw [h]
  case attempts => rw [h]
  case builds => exact fun ho => by simpa [preview, ho] using hreally ho
  case nothing => simp [h]
  case preview =>
    intro w' ho hw
    rw [h] at hw
    cases hw
    simp only [preview, ho, ite_true, ← hdry ho]
    rfl

theorem setsUp_execute (h : (load a.configuration).on s = (.ok c, t)) :
    SetsUp l colored c ⟨a.projectName, a.dryRun⟩ t ((execute l.runner colored a).on s) := by
  rw [on_execute_of_ok h]
  change SetsUp l colored c a.options t _
  cases hs : (Setup.run (l.bazel c.bazel) c a.options).on t with
  | mk x u =>
    have hrun := hs
    rw [Launcher.bazel] at hrun
    cases x with
    | error e =>
      rw [Setup.on_runShown_of_error hrun]
      exact setsUp_of_error hs
    | ok w =>
      rw [Setup.on_runShown_of_ok hrun]
      exact setsUp_of_ok hs

/-! ## All stages -/

theorem execute_stages (l : Launcher) (colored : Bool) (a : Arguments) (s : Session) :
    let ran := (execute l.runner colored a).on s
    match (load a.configuration).on s with
    | (.error e, _) => ran.1 = .error (.config e) ∧ exitCode ran.1 ≠ 0 ∧ s.Idle ran.2
    | (.ok c, loaded) => s.Idle loaded ∧ SetsUp l colored c ⟨a.projectName, a.dryRun⟩ loaded ran := by
  have hidle := idle_load a.configuration s
  cases h : (load a.configuration).on s with
  | mk x t =>
    rw [h] at hidle
    cases x with
    | error e =>
      dsimp only
      rw [on_execute_of_error h]
      exact ⟨rfl, by simp [exitCode, Failure.exitCode], hidle⟩
    | ok c => exact ⟨hidle, setsUp_execute h⟩

/-- **The command runs in stages.** Arguments that spell no admissible words are rejected without effect. A request is
answered. Otherwise the configuration is loaded from the file that was given, which has no effect but in the log, and if
it can be, the workspace is set up, with the name that was given and dryly if that was asked for. -/
theorem run_stages (l : Launcher) (colored : Bool) (arguments : List String) (s : Session) :
    let ran := (run l.runner colored arguments).on s
    ((∀ ws, Spells arguments ws → ¬Admissible ws) → ∃ e, ran = (.error (.usage e), s) ∧ exitCode ran.1 ≠ 0) ∧
    ∀ ws, Spells arguments ws → Admissible ws →
      if .switch .help ∈ ws then ran = (.ok (), { s with shown := s.shown ++ Utf8.encode (helpText.render colored) })
      else if .switch .version ∈ ws then ran = (.ok (), { s with shown := s.shown ++ Utf8.encode versionText })
      else
        match (load (ws.findSome? Word.file?)).on s with
        | (.error e, _) => ran.1 = .error (.config e) ∧ exitCode ran.1 ≠ 0 ∧ s.Idle ran.2
        | (.ok c, loaded) =>
          s.Idle loaded ∧ SetsUp l colored c ⟨ws.findSome? Word.name?, .switch .dryRun ∈ ws⟩ loaded ran := by
  refine ⟨fun hrejected => ?_, fun ws hws hadmissible => ?_⟩
  · obtain ⟨e, he⟩ := parse_usage_iff.mpr hrejected
    refine ⟨e, ?_, ?_⟩
    · rw [run, he]
      rfl
    · rw [run, he]
      simp [exitCode, Failure.exitCode]
  · rw [run, parse_spelt hws hadmissible]
    by_cases hhelp : .switch .help ∈ ws
    · rw [if_pos hhelp, if_pos hhelp]
      rfl
    · rw [if_neg hhelp, if_neg hhelp]
      by_cases hversion : .switch .version ∈ ws
      · rw [if_pos hversion, if_pos hversion]
        rfl
      · rw [if_neg hversion, if_neg hversion]
        exact execute_stages l colored (.ofWords ws) s

/-- Behind two hyphens an option is a name. A file that is missing ends the run, and a switch given twice is refused. -/
theorem run_stages_dry :
    let l := Launcher.printing (Utf8.encode "/\n")
    let s := Session.ofDisk .empty
    let dryly := [Word.switch .dryRun, .name "--config"]
    let verbosely := [Word.switch .verbose, .file "f.toml"]
    let dry := (run l.runner false ["--dry-run", "--", "--config"]).on s
    let missing := (run l.runner false ["-vcf.toml"]).on s
    let twice := (run l.runner false ["-v", "--dry-run", "--verbose"]).on s
    Spells ["--dry-run", "--", "--config"] dryly ∧ Spells ["-vcf.toml"] verbosely ∧
      (∃ loaded, s.Idle loaded ∧ SetsUp l false .default ⟨some "--config", true⟩ loaded dry) ∧
      missing.1 = .error (.config (.file ⟨.read, .ofString "f.toml", .notFound⟩)) ∧ s.Idle missing.2 ∧
      ∃ e, twice = (.error (.usage e), s) := by
  intro l s dryly verbosely dry missing twice
  have hdryly : Spells ["--dry-run", "--", "--config"] dryly := .long (s := .dryRun) rfl (.names ["--config"])
  have hverbosely : Spells ["-vcf.toml"] verbosely :=
    .letters (s := .verbose) rfl rfl (by decide) (.adjoined (f := "f.toml") (by decide) (by decide) .nil)
  obtain ⟨loaded, hloaded⟩ : ∃ loaded, (load (dryly.findSome? Word.file?)).on s = (.ok .default, loaded) := ⟨_, rfl⟩
  have hdry := (run_stages l false ["--dry-run", "--", "--config"] s).2 dryly hdryly (by decide)
  rw [if_neg (by decide), if_neg (by decide), hloaded] at hdry
  obtain ⟨left, hleft⟩ : ∃ left, (load (verbosely.findSome? Word.file?)).on s =
      (.error (.file ⟨.read, .ofString "f.toml", .notFound⟩), left) := ⟨_, rfl⟩
  have hmissing := (run_stages l false ["-vcf.toml"] s).2 verbosely hverbosely (by decide)
  rw [if_neg (by decide), if_neg (by decide), hleft] at hmissing
  obtain ⟨e, htwice, _⟩ := (run_stages l false ["-v", "--dry-run", "--verbose"] s).1 (parse_usage_iff.mp ⟨_, rfl⟩)
  exact ⟨hdryly, hverbosely, ⟨loaded, hdry⟩, hmissing.1, hmissing.2.2, e, htwice⟩

end CommandLine

end EclipseProject
