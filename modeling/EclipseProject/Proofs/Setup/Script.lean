import EclipseProject.Proofs.Workspace.Placing
import EclipseProject.Setup

/-!
# The script of a run

A run follows a script: it builds, asks and places one item after the other, and stops at the first step that
fails. `on_run` says that running is following the script. All that is proved of runs is proved of a step and then,
by induction on the steps, of what follows.
-/

namespace EclipseProject.Setup

/-! ## Steps -/

inductive Query where
  | workspace
  | genfiles
  | bin
  deriving DecidableEq, Repr

def Query.key : Query → String
  | .workspace => "workspace"
  | .genfiles => "bazel-genfiles"
  | .bin => "bazel-bin"

abbrev Answers := Query → Option String

namespace Answers

def learn (a : Answers) (q : Query) (v : String) : Answers := fun r => if r = q then some v else a r

def get (a : Answers) (q : Query) : String := (a q).getD ""

def root (a : Answers) : Path := .ofString (a.get .workspace)

theorem root_eq {a a' : Answers} (h : a .workspace = a' .workspace) : a.root = a'.root := by
  simp [root, get, h]

theorem root_of_some {a : Answers} {v : String} (h : a .workspace = some v) : a.root = .ofString v := by
  simp [root, get, h]

end Answers

inductive Item where
  | classpath
  | description
  | factorypath
  | settings
  | compilerPreferences
  | processingPreferences
  deriving DecidableEq, Repr

namespace Item

def all : List Item :=
  [.classpath, .description, .factorypath, .settings, .compilerPreferences, .processingPreferences]

def path : Item → Path
  | .classpath => classpathFile
  | .description => projectFile
  | .factorypath => factorypathFile
  | .settings => settingsDirectory
  | .compilerPreferences => compilerPreferencesFile
  | .processingPreferences => processingPreferencesFile

/-- What a file holds, given the answers. The settings are a directory. -/
def content (c : Config) (o : Options) (a : Answers) : Item → Option String
  | .classpath => some (Classpath.ofProject (a.get .genfiles) c.depsJar)
  | .description => some (Description.document (projectName c o))
  | .factorypath =>
    some (Factorypath.ofProject ((Path.ofString (a.get .bin)).join (.ofString c.annotationProcessorsJar)))
  | .settings => none
  | .compilerPreferences => some Preferences.compiler
  | .processingPreferences => some (Preferences.annotationProcessing c.aptGenSrcDir)

def entry (c : Config) (o : Options) (a : Answers) (i : Item) : Staging.Entry := ⟨i.path, i.content c o a⟩

end Item

def really (name : Option String) : Options := ⟨name, false⟩
def dryly (name : Option String) : Options := ⟨name, true⟩

inductive Step where
  | build (s : BuildStep)
  | ask (q : Query)
  | place (i : Item)
  deriving DecidableEq, Repr

def steps : List Step :=
  [.ask .workspace, .ask .genfiles, .place .classpath, .place .description, .ask .bin, .place .factorypath,
    .place .settings, .place .compilerPreferences, .place .processingPreferences]

def builds (c : Config) : List Step := c.build.steps.map .build

def script (c : Config) (o : Options) : List Step := (if o.dryRun then [] else builds c) ++ steps

/-! ## Following -/

/-- What a run has learnt and staged. -/
structure Progress where
  answers : Answers
  staged : Staging.Record

namespace Progress

def start : Progress := ⟨fun _ => none, .empty⟩

def workspace (g : Progress) (o : Options) : Workspace := ⟨g.answers.root, o.dryRun, g.staged⟩

def learn (g : Progress) (q : Query) (v : String) : Progress := { g with answers := g.answers.learn q v }

def stage (g : Progress) (e : Staging.Entry) : Progress := { g with staged := g.staged.push e }

end Progress

def perform (b : Bazel) (c : Config) (o : Options) (g : Progress) : Step → Action Error Progress
  | .build s => do
    Action.wrap .bazel do
      Action.note (.building s.1)
      b.build s.2
    return g
  | .ask q => do
    let v ← query b q.key
    if q = .workspace then Action.note (.writingInto v)
    return g.learn q v
  | .place i => do
    let w ← within ((g.workspace o).place (i.entry c o g.answers))
    return { g with staged := w.staged }

/-- How far a run came: the steps done, what they came to, and the step that failed, if one did, with its error and
the session that it left. -/
structure Trail where
  done : List Step
  progress : Progress
  reached : Session
  failure : Option (Step × Error × Session)

def follow (b : Bazel) (c : Config) (o : Options) : List Step → Progress → Session → Trail
  | [], g, s => ⟨[], g, s, none⟩
  | st :: rest, g, s =>
    match (perform b c o g st).on s with
    | (.ok g', s') => { follow b c o rest g' s' with done := st :: (follow b c o rest g' s').done }
    | (.error e, s') => ⟨[], g, s, some (st, e, s')⟩

def opening (o : Options) (s : Session) : Session :=
  if o.dryRun then { s with log := s.log ++ [.skippingBuild] } else s

def trail (b : Bazel) (c : Config) (o : Options) (s : Session) : Trail :=
  follow b c o (script c o) .start (opening o s)

namespace Trail

def tried (t : Trail) : List Step := t.done ++ (t.failure.map (·.1)).toList

def session (t : Trail) : Session := (t.failure.map (·.2.2)).getD t.reached

def result (t : Trail) (o : Options) : Except Error Workspace :=
  match t.failure with
  | none => .ok (t.progress.workspace o)
  | some (_, e, _) => .error e

def after (sts : List Step) (t : Trail) : Trail := { t with done := sts ++ t.done }

end Trail

theorem failure_of_result {t : Trail} {o : Options} {e : Error} (h : t.result o = .error e) :
    ∃ st s, t.failure = some (st, e, s) := by
  unfold Trail.result at h
  split at h
  · cases h
  · next st e' s hf =>
    cases h
    exact ⟨st, s, hf⟩

theorem result_of_failure {t : Trail} {o : Options} {st : Step} {e : Error} {s : Session}
    (h : t.failure = some (st, e, s)) : t.result o = .error e := by
  simp [Trail.result, h]

theorem result_of_none {t : Trail} {o : Options} (h : t.failure = none) :
    t.result o = .ok (t.progress.workspace o) := by
  simp [Trail.result, h]

theorem failure_of_ok {t : Trail} {o : Options} {w : Workspace} (h : t.result o = .ok w) :
    t.failure = none ∧ w = t.progress.workspace o := by
  unfold Trail.result at h
  split at h
  · next hf =>
    cases h
    exact ⟨hf, rfl⟩
  · cases h

/-! ## What a step comes to -/

section
variable {b : Bazel} {c : Config} {o : Options} {g : Progress} {s : Session}

theorem on_perform_build (st : BuildStep) : (perform b c o g (.build st)).on s =
    let i := b.invocation ("build" :: st.2)
    let r := b.runner.stream s.calls s.disk i
    let s' := r.leave i { s with log := s.log ++ [.building st.1, .running i.commandLine] }
    match r.result with
    | .ok _ => (.ok g, s')
    | .error e => (.error (.bazel e), s') := by
  simp only [perform, Action.on_bind, Action.on_wrap, Action.on_note, Bazel.on_build, List.append_assoc,
    List.singleton_append]
  cases (b.runner.stream s.calls s.disk (b.invocation ("build" :: st.2))).result <;> rfl

/-- The root is told to the log as soon as it is known. -/
def announce (q : Query) (v : String) (s : Session) : Session :=
  if q = .workspace then { s with log := s.log ++ [.writingInto v] } else s

theorem on_perform_ask (q : Query) : (perform b c o g (.ask q)).on s =
    match (b.info q.key).on s with
    | (.ok v, s') => (.ok (g.learn q v), announce q v s')
    | (.error e, s') => (.error (.bazel e), s') := by
  simp only [perform, query, Action.on_bind, Action.on_wrap]
  cases (b.info q.key).on s with
  | mk r s' =>
    cases r with
    | error e => rfl
    | ok v => by_cases hq : q = .workspace <;> simp [Except.map, announce, hq]

theorem on_perform_place_of_dryRun (ho : o.dryRun = true) (i : Item) :
    (perform b c o g (.place i)).on s = (.ok (g.stage (i.entry c o g.answers)), s) := by
  have h := Workspace.on_place_of_dryRun (g.workspace o) (i.entry c o g.answers) s ho
  simp only [perform, Action.on_bind, on_within, h]
  rfl

theorem on_perform_place (ho : o.dryRun = false) (i : Item) : (perform b c o g (.place i)).on s =
    let p := g.answers.root.join i.path
    let content := i.content c o g.answers
    let tried := s.attempting (.place p content)
    match s.disk.place p content with
    | (.ok _, d) =>
      (.ok (g.stage (i.entry c o g.answers)),
        { tried with disk := d, log := s.log ++ [Workspace.placed s.disk p content] })
    | (.error cause, d) => (.error (.file ⟨.placing content, p, cause⟩), { tried with disk := d }) := by
  have h := Workspace.on_place (g.workspace o) (i.entry c o g.answers) s ho
  simp only [Progress.workspace, Item.entry] at h
  simp only [perform, Action.on_bind, on_within, Progress.workspace, Item.entry, h]
  cases hp : s.disk.place (g.answers.root.join i.path) (i.content c o g.answers) with
  | mk r d => cases r <;> rfl

end

/-! ## Running is following -/

section
variable {b : Bazel} {c : Config} {o : Options} {g g' : Progress} {s s' : Session} {st : Step} {rest : List Step}

theorem follow_cons_ok (h : (perform b c o g st).on s = (.ok g', s')) : follow b c o (st :: rest) g s =
    { follow b c o rest g' s' with done := st :: (follow b c o rest g' s').done } := by
  rw [follow, h]

theorem follow_cons_error {e : Error} (h : (perform b c o g st).on s = (.error e, s')) :
    follow b c o (st :: rest) g s = ⟨[], g, s, some (st, e, s')⟩ := by
  rw [follow, h]

theorem follow_append_of_done {xs ys : List Step} (h : (follow b c o xs g s).failure = none) :
    follow b c o (xs ++ ys) g s =
      (follow b c o ys (follow b c o xs g s).progress (follow b c o xs g s).reached).after xs := by
  induction xs generalizing g s with
  | nil => rfl
  | cons st xs ih =>
    cases hp : (perform b c o g st).on s with
    | mk r s' =>
      cases r with
      | error e =>
        rw [follow_cons_error hp] at h
        cases h
      | ok g' =>
        rw [follow_cons_ok hp] at h ⊢
        rw [List.cons_append, follow_cons_ok hp, ih h]
        rfl

theorem follow_append_of_failure {xs ys : List Step} (h : (follow b c o xs g s).failure ≠ none) :
    follow b c o (xs ++ ys) g s = follow b c o xs g s := by
  induction xs generalizing g s with
  | nil => exact absurd rfl h
  | cons st xs ih =>
    cases hp : (perform b c o g st).on s with
    | mk r s' =>
      cases r with
      | error e => rw [List.cons_append, follow_cons_error hp, follow_cons_error hp]
      | ok g' =>
        rw [follow_cons_ok hp] at h
        rw [List.cons_append, follow_cons_ok hp, follow_cons_ok hp, ih h]

theorem failure_of_append {xs ys : List Step} (h : (follow b c o (xs ++ ys) g s).failure = none) :
    (follow b c o xs g s).failure = none := by
  cases hf : (follow b c o xs g s).failure with
  | none => rfl
  | some f =>
    rw [follow_append_of_failure (by simp [hf]), hf] at h
    cases h

/-- The action answers and leaves what following the steps does. -/
def Follows (b : Bazel) (c : Config) (o : Options) (sts : List Step) (g : Progress) (a : Action Error Workspace) :
    Prop :=
  ∀ s, a.on s = ((follow b c o sts g s).result o, (follow b c o sts g s).session)

theorem follows_nil : Follows b c o [] g (return g.workspace o) := fun _ => rfl

theorem follows_cons {k : Progress → Action Error Workspace} {a : Action Error Workspace}
    (ha : ∀ s, a.on s = (perform b c o g st >>= k).on s)
    (hk : ∀ g' s s', (perform b c o g st).on s = (.ok g', s') → Follows b c o rest g' (k g')) :
    Follows b c o (st :: rest) g a := by
  intro s
  rw [ha, Action.on_bind]
  cases h : (perform b c o g st).on s with
  | mk r s' =>
    cases r with
    | ok g' =>
      rw [follow_cons_ok h]
      exact hk g' s s' h s'
    | error e =>
      rw [follow_cons_error h]
      rfl

theorem follows_builds {k : Action Error Workspace} (hk : Follows b c o rest g k) (sts : List BuildStep) :
    Follows b c o (sts.map .build ++ rest) g (Action.wrap .bazel (buildSteps b sts) >>= fun _ => k) := by
  induction sts with
  | nil => exact hk
  | cons st sts ih =>
    refine follows_cons (k := fun _ => Action.wrap .bazel (buildSteps b sts) >>= fun _ => k) (fun s => ?_) ?_
    · simp only [buildSteps, Action.on_bind, Action.on_wrap, Action.on_note, Bazel.on_build, on_perform_build,
        List.append_assoc, List.singleton_append]
      cases (b.runner.stream s.calls s.disk (b.invocation ("build" :: st.2))).result <;> rfl
    · intro g' s s' h
      rw [on_perform_build] at h
      dsimp only at h
      split at h
      · cases h
        exact ih
      · cases h

theorem follows_ask {q : Query} {k : String → Action Error Workspace}
    (hk : ∀ v, Follows b c o rest (g.learn q v) (k v)) : Follows b c o (.ask q :: rest) g (do
      let v ← query b q.key
      if q = .workspace then Action.note (.writingInto v)
      k v) := by
  refine follows_cons (k := fun g' => k (g'.answers.get q)) (fun s => ?_) ?_
  · simp only [query, Action.on_bind, Action.on_wrap, on_perform_ask]
    cases (b.info q.key).on s with
    | mk r s' =>
      cases r with
      | error e => rfl
      | ok v =>
        by_cases hq : q = .workspace <;>
          simp [announce, hq, Progress.learn, Answers.learn, Answers.get]
  · intro g' s s' h
    rw [on_perform_ask] at h
    split at h
    · next v _ _ =>
      cases h
      have hv : (g.learn q v).answers.get q = v := by simp [Progress.learn, Answers.learn, Answers.get]
      rw [hv]
      exact hk v
    · cases h

theorem eq_of_perform_place {i : Item} (h : (perform b c o g (.place i)).on s = (.ok g', s')) :
    g' = g.stage (i.entry c o g.answers) := by
  cases ho : o.dryRun with
  | true =>
    rw [on_perform_place_of_dryRun ho] at h
    cases h
    rfl
  | false =>
    rw [on_perform_place ho] at h
    dsimp only at h
    split at h
    · cases h
      rfl
    · cases h

theorem follows_place {i : Item} {k : Workspace → Action Error Workspace}
    (hk : Follows b c o rest (g.stage (i.entry c o g.answers)) (k ((g.stage (i.entry c o g.answers)).workspace o))) :
    Follows b c o (.place i :: rest) g (within ((g.workspace o).place (i.entry c o g.answers)) >>= k) := by
  refine follows_cons (k := fun g' => k (g'.workspace o)) (fun s => ?_) ?_
  · simp only [perform, Action.on_bind, on_within]
    cases h : ((g.workspace o).place (i.entry c o g.answers)).on s with
    | mk answer w s' =>
      cases answer with
      | error e => rfl
      | ok _ =>
        rw [Workspace.eq_of_place_ok h]
        rfl
  · intro g' s s' h
    rw [eq_of_perform_place h]
    exact hk

theorem follows_place_last (i : Item) :
    Follows b c o [.place i] g (within ((g.workspace o).place (i.entry c o g.answers))) := by
  intro s
  rw [← follows_place (k := pure) follows_nil s, Action.on_bind]
  cases (within ((g.workspace o).place (i.entry c o g.answers))).on s with
  | mk r s' => cases r <;> rfl

theorem follows_generate : Follows b c o steps .start (generate b c o) := by
  refine follows_ask (q := .workspace) fun root => ?_
  refine follows_ask (q := .genfiles) fun genfiles => ?_
  refine follows_place (i := .classpath) ?_
  refine follows_place (i := .description) ?_
  refine follows_ask (q := .bin) fun bin => ?_
  refine follows_place (i := .factorypath) ?_
  refine follows_place (i := .settings) ?_
  refine follows_place (i := .compilerPreferences) ?_
  exact follows_place_last .processingPreferences

/-- **A run follows its script.** -/
theorem on_run (b : Bazel) (c : Config) (o : Options) (s : Session) :
    (run b c o).on s = ((trail b c o s).result o, (trail b c o s).session) := by
  unfold run trail script opening
  cases o.dryRun with
  | true =>
    refine (Action.on_bind (Action.note .skippingBuild) (fun _ => generate b c o) s).trans ?_
    rw [Action.on_note]
    exact follows_generate _
  | false => exact follows_builds follows_generate c.build.steps s

end

end EclipseProject.Setup
