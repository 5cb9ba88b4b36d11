import EclipseProject.Proofs.Setup.Script

/-!
# What a run attempts

The steps tried are the shortest prefix of the script that ends with a failing step, or the whole script. What is
attempted is what these steps attempt, the error is that of the last one, and what is staged is what was placed.
-/

namespace EclipseProject.Setup

/-- The answers on which a step depends. -/
def Step.needs : Step → List Query
  | .build _ => []
  | .ask _ => []
  | .place .classpath => [.workspace, .genfiles]
  | .place .factorypath => [.workspace, .bin]
  | .place _ => [.workspace]

def Step.item? : Step → Option Item
  | .place i => some i
  | _ => none

def tells (q : Query) : Log.Record → Option String
  | .answered key v => if key = q.key then some v else none
  | _ => none

/-- The answers of which a log tells, the last to each question. -/
def answersIn (log : List Log.Record) : Answers := fun q => log.reverse.findSome? (tells q)

/-- What a step has done by bazel or on the disk. A dry run places nothing there. -/
def Step.attempts (b : Bazel) (c : Config) (o : Options) (a : Answers) : Step → List Attempt
  | .build s => [.call (b.invocation ("build" :: s.2))]
  | .ask q => [.call (b.invocation ["info", q.key])]
  | .place i => if o.dryRun then [] else [.place (a.root.join i.path) (i.content c o a)]

/-- How a step fails in a session. -/
inductive FailsWith (b : Bazel) (c : Config) (o : Options) (a : Answers) (s : Session) : Step → Error → Prop
  | build {st : BuildStep} {e : Bazel.Error}
      (h : (b.runner.stream s.calls s.disk (b.invocation ("build" :: st.2))).result = .error e) :
      FailsWith b c o a s (.build st) (.bazel e)
  | ask {q : Query} {e : Bazel.Error}
      (h : (b.runner.capture s.calls s.disk (b.invocation ["info", q.key])).result = .error e) :
      FailsWith b c o a s (.ask q) (.bazel e)
  | blank {q : Query} {text : String}
      (h : (b.runner.capture s.calls s.disk (b.invocation ["info", q.key])).result = .ok text)
      (ht : Text.firstNonblank? text.toList = none) :
      FailsWith b c o a s (.ask q) (.bazel (.emptyInfo (b.invocation ["info", q.key]).commandLine))
  | write {i : Item} {contents : String} {cause : SystemError} (ho : o.dryRun = false)
      (hi : i.content c o a = some contents)
      (h : s.disk.writeFile (a.root.join i.path) (Utf8.encode contents) = .error cause) :
      FailsWith b c o a s (.place i) (.file ⟨.write, a.root.join i.path, cause⟩)
  | makeDirectory {i : Item} {cause : SystemError} (ho : o.dryRun = false) (hi : i.content c o a = none)
      (h : (s.disk.ensureDirectory (a.root.join i.path)).1 = .error cause) :
      FailsWith b c o a s (.place i) (.file ⟨.makeDirectory, a.root.join i.path, cause⟩)

section
variable {b : Bazel} {c : Config} {o : Options} {g g' : Progress} {s s' : Session} {st : Step} {e : Error}
  {sts : List Step}

/-! ## Each step -/

theorem attempts_info (q : Query) :
    ((b.info q.key).on s).2.attempts = s.attempts ++ [.call (b.invocation ["info", q.key])] := by
  rw [Bazel.on_info]
  dsimp only
  split
  · rfl
  · split <;> rfl

theorem attempts_perform (st : Step) :
    ((perform b c o g st).on s).2.attempts = s.attempts ++ st.attempts b c o g.answers := by
  cases st with
  | build st =>
    rw [on_perform_build]
    dsimp only
    split <;> rfl
  | ask q =>
    have h := attempts_info (b := b) (s := s) q
    rw [on_perform_ask]
    split
    · next v s' hi =>
      rw [hi] at h
      unfold announce
      split <;> exact h
    · next e s' hi =>
      rw [hi] at h
      exact h
  | place i =>
    cases ho : o.dryRun with
    | true =>
      rw [on_perform_place_of_dryRun ho]
      simp [Step.attempts, ho]
    | false =>
      rw [on_perform_place ho]
      simp only [Step.attempts, ho]
      split <;> rfl

theorem failsWith_of_perform (h : (perform b c o g st).on s = (.error e, s')) :
    FailsWith b c o g.answers s st e := by
  cases st with
  | build st =>
    rw [on_perform_build] at h
    dsimp only at h
    split at h
    · cases h
    · next e' he =>
      cases h
      exact .build he
  | ask q =>
    rw [on_perform_ask, Bazel.on_info] at h
    dsimp only at h
    split at h
    · cases h
    · next e' s₁ hi =>
      cases h
      split at hi
      · next e₁ he =>
        cases hi
        exact .ask he
      · next text ht =>
        split at hi
        · next hb =>
          cases hi
          exact .blank ht hb
        · cases hi
  | place i =>
    cases ho : o.dryRun with
    | true =>
      rw [on_perform_place_of_dryRun ho] at h
      cases h
    | false =>
      rw [on_perform_place ho] at h
      dsimp only at h
      split at h
      · cases h
      · next cause d hp =>
        cases h
        cases hi : i.content c o g.answers with
        | none =>
          rw [hi] at hp
          exact .makeDirectory ho hi (congrArg Prod.fst hp)
        | some contents =>
          rw [hi] at hp
          unfold Disk.place at hp
          dsimp only at hp
          split at hp
          · cases hp
          · next cause' hw =>
            cases hp
            exact .write ho hi hw

theorem perform_error_iff : ((perform b c o g st).on s).1 = .error e ↔ FailsWith b c o g.answers s st e := by
  constructor
  · intro h
    have hp : (perform b c o g st).on s = (.error e, ((perform b c o g st).on s).2) := Prod.ext h rfl
    exact failsWith_of_perform hp
  · intro h
    cases h with
    | build h => simp [on_perform_build, h]
    | ask h => simp [on_perform_ask, Bazel.on_info, h]
    | blank h ht => simp [on_perform_ask, Bazel.on_info, h, ht]
    | write ho hi h => simp [on_perform_place ho, hi, Disk.place, h, FileOperation.placing]
    | @makeDirectory i cause ho hi h =>
      cases hd : s.disk.ensureDirectory (g.answers.root.join i.path) with
      | mk r d =>
        obtain rfl : r = .error cause := by rw [← h, hd]
        simp [on_perform_place ho, hi, Disk.place, hd, FileOperation.placing]

/-- A step that succeeds learns what it asks, stages what it places and nothing else. -/
theorem progress_of_perform (h : (perform b c o g st).on s = (.ok g', s')) :
    (∀ q, st ≠ .ask q → g'.answers q = g.answers q) ∧
      g'.staged.entries = g.staged.entries ++ st.item?.toList.map (Item.entry c o g.answers) := by
  cases st with
  | build st =>
    rw [on_perform_build] at h
    dsimp only at h
    split at h
    · cases h
      simp [Step.item?]
    · cases h
  | ask q =>
    rw [on_perform_ask] at h
    split at h
    · cases h
      refine ⟨fun r hr => ?_, by simp [Progress.learn, Step.item?]⟩
      have hne : r ≠ q := fun e => hr (e ▸ rfl)
      simp [Progress.learn, Answers.learn, hne]
    · cases h
  | place i =>
    rw [eq_of_perform_place h]
    exact ⟨fun _ _ => rfl, rfl⟩

/-! ## What follows -/

theorem follow_nil : follow b c o [] g s = ⟨[], g, s, none⟩ := rfl

/-- The steps done are those that succeed when nothing comes after them. -/
theorem follow_done (sts : List Step) (g : Progress) (s : Session) :
    follow b c o (follow b c o sts g s).done g s = { follow b c o sts g s with failure := none } := by
  induction sts generalizing g s with
  | nil => rfl
  | cons st sts ih =>
    cases h : (perform b c o g st).on s with
    | mk r s' =>
      cases r with
      | error e => rw [follow_cons_error h, follow_nil]
      | ok g' =>
        rw [follow_cons_ok h]
        dsimp only
        rw [follow_cons_ok h, ih]

/-- None of the steps done fails where it is reached. -/
theorem not_failsWith_of_done {st : Step} {pre post : List Step} (sts : List Step) (g : Progress) (s : Session)
    (h : (follow b c o sts g s).done = pre ++ st :: post) (e : Error) :
    ¬ FailsWith b c o (follow b c o pre g s).progress.answers (follow b c o pre g s).reached st e := by
  induction sts generalizing pre g s with
  | nil => simp [follow_nil] at h
  | cons st' sts ih =>
    cases hp : (perform b c o g st').on s with
    | mk r s' =>
      cases r with
      | error e' =>
        rw [follow_cons_error hp] at h
        simp at h
      | ok g' =>
        rw [follow_cons_ok hp] at h
        cases pre with
        | nil =>
          obtain ⟨rfl, _⟩ := List.cons.inj h
          rw [follow_nil, ← perform_error_iff, hp]
          simp
        | cons x pre =>
          obtain ⟨rfl, hd⟩ := List.cons.inj h
          rw [follow_cons_ok hp]
          exact ih g' s' hd

theorem tried_follow (sts : List Step) (g : Progress) (s : Session) :
    (follow b c o sts g s).tried <+: sts ∧
      ((follow b c o sts g s).failure = none → (follow b c o sts g s).tried = sts) := by
  induction sts generalizing g s with
  | nil => simp [follow, Trail.tried]
  | cons st sts ih =>
    cases h : (perform b c o g st).on s with
    | mk r s' =>
      cases r with
      | error e =>
        rw [follow_cons_error h]
        simp [Trail.tried]
      | ok g' =>
        rw [follow_cons_ok h]
        obtain ⟨hp, hn⟩ := ih g' s'
        exact ⟨(List.prefix_cons_inj st).mpr hp, fun hf => congrArg (st :: ·) (hn hf)⟩

theorem failsWith_follow {st : Step} {e : Error} {s₁ : Session} (sts : List Step) (g : Progress) (s : Session)
    (h : (follow b c o sts g s).failure = some (st, e, s₁)) :
    FailsWith b c o (follow b c o sts g s).progress.answers (follow b c o sts g s).reached st e := by
  induction sts generalizing g s with
  | nil => cases h
  | cons st' sts ih =>
    cases hp : (perform b c o g st').on s with
    | mk r s' =>
      cases r with
      | error e' =>
        rw [follow_cons_error hp] at h ⊢
        cases h
        exact failsWith_of_perform hp
      | ok g' =>
        rw [follow_cons_ok hp] at h ⊢
        exact ih g' s' h

/-! ## Questions before their answers are needed -/

/-- What a step needs is not asked again. -/
def Ordered (sts : List Step) : Prop := sts.Pairwise fun st later => ∀ q ∈ st.needs, later ≠ .ask q

theorem ordered_script (c : Config) (o : Options) : Ordered (script c o) := by
  unfold Ordered script
  refine List.pairwise_append.mpr ⟨?_, ?_, ?_⟩
  · split
    · exact .nil
    · exact List.pairwise_map.mpr (List.pairwise_of_forall fun _ _ => by simp [Step.needs])
  · simp [steps, Step.needs]
  · intro st hst later _
    split at hst
    · simp at hst
    · obtain ⟨s, _, rfl⟩ := List.mem_map.mp hst
      simp [Step.needs]

theorem answers_follow {q : Query} (sts : List Step) (hq : ∀ st ∈ sts, st ≠ .ask q) (g : Progress) (s : Session) :
    (follow b c o sts g s).progress.answers q = g.answers q := by
  induction sts generalizing g s with
  | nil => rfl
  | cons st sts ih =>
    cases h : (perform b c o g st).on s with
    | mk r s' =>
      cases r with
      | error e => rw [follow_cons_error h]
      | ok g' =>
        rw [follow_cons_ok h]
        refine (ih (fun x hx => hq x (by simp [hx])) g' s').trans ?_
        exact (progress_of_perform h).1 q (hq st (by simp))

theorem content_congr {a a' : Answers} {i : Item} (h : ∀ q ∈ (Step.place i).needs, a q = a' q) :
    i.content c o a = i.content c o a' := by
  cases i <;> simp_all [Step.needs, Item.content, Answers.get]

theorem root_congr {a a' : Answers} {i : Item} (h : ∀ q ∈ (Step.place i).needs, a q = a' q) : a.root = a'.root :=
  Answers.root_eq (h .workspace (by cases i <;> simp [Step.needs]))

theorem attempts_congr {a a' : Answers} (h : ∀ q ∈ st.needs, a q = a' q) :
    st.attempts b c o a = st.attempts b c o a' := by
  cases st with
  | build st => rfl
  | ask q => rfl
  | place i => simp only [Step.attempts, content_congr h, root_congr h]

/-- At the end the answers that a step needed are still those that it had. -/
theorem answers_of_needs (hs : Ordered (st :: sts)) (h : (perform b c o g st).on s = (.ok g', s')) :
    ∀ q ∈ st.needs, (follow b c o sts g' s').progress.answers q = g.answers q := by
  intro q hq
  have hst := (List.pairwise_cons.mp hs).1
  refine (answers_follow sts (fun x hx => hst x hx q hq) g' s').trans ?_
  refine (progress_of_perform h).1 q fun e => ?_
  subst e
  simp [Step.needs] at hq

theorem attempts_follow (hs : Ordered sts) (g : Progress) (s : Session) :
    (follow b c o sts g s).session.attempts = s.attempts ++
      (follow b c o sts g s).tried.flatMap (Step.attempts b c o (follow b c o sts g s).progress.answers) := by
  induction sts generalizing g s with
  | nil => simp [follow, Trail.session, Trail.tried]
  | cons st sts ih =>
    have ha := attempts_perform (b := b) (c := c) (o := o) (g := g) (s := s) st
    cases h : (perform b c o g st).on s with
    | mk r s' =>
      rw [h] at ha
      cases r with
      | error e =>
        rw [follow_cons_error h]
        simpa [Trail.session, Trail.tried] using ha
      | ok g' =>
        -- the step attempted with the answers of then what it attempts with those of the end
        have hst := attempts_congr (b := b) (c := c) (o := o) (answers_of_needs hs h)
        have hrest := ih (List.pairwise_cons.mp hs).2 g' s'
        rw [follow_cons_ok h]
        simp only [Trail.session, Trail.tried, List.cons_append, List.flatMap_cons] at hrest ⊢
        rw [hrest, ha, hst, List.append_assoc]

theorem staged_follow (hs : Ordered sts) (g : Progress) (s : Session) :
    (follow b c o sts g s).progress.staged.entries = g.staged.entries ++
      ((follow b c o sts g s).done.filterMap Step.item?).map
        (Item.entry c o (follow b c o sts g s).progress.answers) := by
  induction sts generalizing g s with
  | nil => simp [follow]
  | cons st sts ih =>
    cases h : (perform b c o g st).on s with
    | mk r s' =>
      cases r with
      | error e =>
        rw [follow_cons_error h]
        simp
      | ok g' =>
        have hrest := ih (List.pairwise_cons.mp hs).2 g' s'
        rw [follow_cons_ok h]
        dsimp only
        rw [hrest, (progress_of_perform h).2, List.append_assoc]
        congr 1
        cases st with
        | build st => rfl
        | ask q => rfl
        | place i =>
          have hi := content_congr (c := c) (o := o) (answers_of_needs hs h)
          simp [Step.item?, Item.entry, hi]

/-! ## Answers and the log -/

theorem answersIn_append (log new : List Log.Record) (q : Query) :
    answersIn (log ++ new) q = (answersIn new q).or (answersIn log q) := by
  simp [answersIn, List.findSome?_append]

theorem tells_answered (q r : Query) (v : String) : tells q (.answered r.key v) = if q = r then some v else none := by
  cases q <;> cases r <;> simp [tells, Query.key]

theorem log_info (q : Query) : match (b.info q.key).on s with
    | (.ok v, s') => s'.log = s.log ++ [.answered q.key v]
    | (.error _, s') => s'.log = s.log := by
  rw [Bazel.on_info]
  dsimp only
  cases (b.runner.capture s.calls s.disk (b.invocation ["info", q.key])).result with
  | error e => rfl
  | ok text =>
    dsimp only
    cases Text.firstNonblank? text.toList <;> rfl

/-- What a step adds to the log tells what it learns, and nothing if it fails. -/
theorem log_perform (st : Step) : ∃ new, ((perform b c o g st).on s).2.log = s.log ++ new ∧
    match ((perform b c o g st).on s).1 with
    | .ok g' => ∀ q, g'.answers q = (answersIn new q).or (g.answers q)
    | .error _ => ∀ q, answersIn new q = none := by
  cases st with
  | build st =>
    rw [on_perform_build]
    dsimp only
    cases (b.runner.stream s.calls s.disk (b.invocation ("build" :: st.2))).result <;>
      exact ⟨_, rfl, fun q => rfl⟩
  | ask r =>
    have h := log_info (b := b) (s := s) r
    rw [on_perform_ask]
    cases hi : (b.info r.key).on s with
    | mk x s' =>
    rw [hi] at h
    cases x with
    | error e => exact ⟨[], by simpa using h, fun q => rfl⟩
    | ok v =>
      dsimp only at h ⊢
      by_cases hw : r = .workspace
      · refine ⟨[.answered r.key v, .writingInto v], by simp [announce, hw, h], fun q => ?_⟩
        have hn : ∀ x, tells x (.writingInto v) = none := fun _ => rfl
        by_cases hq : q = r <;>
          simp [answersIn, hn, tells_answered, hq, Progress.learn, Answers.learn]
      · refine ⟨[.answered r.key v], by simp [announce, hw, h], fun q => ?_⟩
        by_cases hq : q = r <;> simp [answersIn, tells_answered, hq, Progress.learn, Answers.learn]
  | place i =>
    cases ho : o.dryRun with
    | true =>
      rw [on_perform_place_of_dryRun ho]
      exact ⟨[], by simp, fun q => rfl⟩
    | false =>
      rw [on_perform_place ho]
      dsimp only
      split
      · refine ⟨_, rfl, fun q => ?_⟩
        cases i <;> rfl
      · exact ⟨[], by simp [Session.attempting], fun q => rfl⟩

theorem log_follow (sts : List Step) (g : Progress) (s : Session) :
    ∃ new, (follow b c o sts g s).session.log = s.log ++ new ∧
      ∀ q, (follow b c o sts g s).progress.answers q = (answersIn new q).or (g.answers q) := by
  induction sts generalizing g s with
  | nil => exact ⟨[], by simp [follow, Trail.session], fun q => rfl⟩
  | cons st sts ih =>
    obtain ⟨new, hl, ha⟩ := log_perform (b := b) (c := c) (o := o) (g := g) (s := s) st
    cases h : (perform b c o g st).on s with
    | mk r s' =>
      rw [h] at hl ha
      cases r with
      | error e =>
        rw [follow_cons_error h]
        exact ⟨new, hl, fun q => by simp [ha q]⟩
      | ok g' =>
        obtain ⟨more, hl', ha'⟩ := ih g' s'
        rw [follow_cons_ok h]
        refine ⟨new ++ more, ?_, fun q => ?_⟩
        · rw [← List.append_assoc, ← hl]
          exact hl'
        · rw [ha' q, ha q, answersIn_append, Option.or_assoc]

end

/-! ## The whole run -/

theorem items_builds (c : Config) : (builds c).filterMap Step.item? = [] := by
  rw [builds, List.filterMap_map]
  exact List.filterMap_eq_nil_iff.mpr fun _ _ => rfl

theorem items_script (c : Config) (o : Options) : (script c o).filterMap Step.item? = Item.all := by
  unfold script
  rw [List.filterMap_append]
  split
  · rfl
  · rw [items_builds]
    rfl

section
variable (b : Bazel) (c : Config) (o : Options) (s : Session)

theorem tried_trail : (trail b c o s).tried <+: script c o ∧
    ((trail b c o s).failure = none → (trail b c o s).tried = script c o) := tried_follow _ _ _

theorem attempts_trail : (trail b c o s).session.attempts =
    s.attempts ++ (trail b c o s).tried.flatMap (Step.attempts b c o (trail b c o s).progress.answers) := by
  have hopening : (opening o s).attempts = s.attempts := by
    unfold opening
    split <;> rfl
  rw [← hopening]
  exact attempts_follow (ordered_script c o) _ _

theorem staged_trail (h : (trail b c o s).failure = none) : (trail b c o s).progress.staged.entries =
    Item.all.map (Item.entry c o (trail b c o s).progress.answers) := by
  have hdone : (trail b c o s).done = script c o := by
    have ht := (tried_trail b c o s).2 h
    simpa [Trail.tried, h] using ht
  have hstaged := staged_follow (b := b) (c := c) (o := o) (ordered_script c o) .start (opening o s)
  rw [← items_script c o, ← hdone]
  exact hstaged

theorem log_opening : ∃ first, (opening o s).log = s.log ++ first ∧ ∀ q, answersIn first q = none := by
  unfold opening
  split
  · exact ⟨_, rfl, fun q => rfl⟩
  · exact ⟨[], by simp, fun q => rfl⟩

theorem log_trail :
    ∃ new, (trail b c o s).session.log = s.log ++ new ∧ (trail b c o s).progress.answers = answersIn new := by
  obtain ⟨first, hf, hn⟩ := log_opening o s
  obtain ⟨new, hl, ha⟩ := log_follow (b := b) (c := c) (o := o) (script c o) .start (opening o s)
  refine ⟨first ++ new, ?_, funext fun q => ?_⟩
  · rw [← List.append_assoc, ← hf]
    exact hl
  · rw [answersIn_append, hn q, Option.or_none]
    exact (ha q).trans Option.or_none

/-- **What a run attempts.** Whatever bazel answers and the disk holds, the steps tried are the shortest prefix of
the script that ends with a failing step, or the whole script. What these steps attempt is attempted and nothing
else, with the answers of which the log tells. A failure is that of the last step; without one the record holds the
six items in their order. -/
theorem run_attempts_script :
    (run b c o).on s = ((trail b c o s).result o, (trail b c o s).session) ∧
    let t := trail b c o s
    let a := t.progress.answers
    follow b c o t.done .start (opening o s) = { t with failure := none } ∧
    (∀ pre st post e, t.done = pre ++ st :: post → let before := follow b c o pre .start (opening o s)
      ¬ FailsWith b c o before.progress.answers before.reached st e) ∧
    t.tried <+: script c o ∧
    t.session.attempts = s.attempts ++ t.tried.flatMap (Step.attempts b c o a) ∧
    (∃ new, t.session.log = s.log ++ new ∧ a = answersIn new) ∧
    match t.failure with
    | none => t.tried = script c o ∧ ∃ w, t.result o = .ok w ∧ w.root = a.root ∧ w.dryRun = o.dryRun ∧
        w.staged.entries = Item.all.map (Item.entry c o a)
    | some (st, e, _) => t.tried = t.done ++ [st] ∧ t.result o = .error e ∧ FailsWith b c o a t.reached st e := by
  refine ⟨on_run b c o s, ?_⟩
  intro t a
  refine ⟨follow_done _ _ _, fun _ _ _ e h => not_failsWith_of_done _ _ _ h e,
    (tried_trail b c o s).1, attempts_trail b c o s, log_trail b c o s, ?_⟩
  cases hf : t.failure with
  | none =>
    exact ⟨(tried_trail b c o s).2 hf, t.progress.workspace o, by simp [Trail.result, hf], rfl, rfl,
      staged_trail b c o s hf⟩
  | some f =>
    obtain ⟨st, e, s'⟩ := f
    exact ⟨by simp [Trail.tried, hf], by simp [Trail.result, hf], failsWith_follow _ _ _ hf⟩

end

end EclipseProject.Setup
