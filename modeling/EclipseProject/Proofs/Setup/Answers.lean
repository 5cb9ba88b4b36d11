import EclipseProject.Proofs.Setup.Contents
import EclipseProject.Proofs.Text.Lines

/-!
# What a query answers

A query fails as its call fails. Of a text it takes one line, found with one cut, and refuses a text that is all blank.
So no answer is blank, and the root below which a run writes is never the empty path.
-/

namespace EclipseProject

namespace Bazel

variable {b : Bazel} {key v : String} {s : Session}

/-- What a query makes of the text that is printed for it. -/
def answerIn (program key text : String) : Except Error String :=
  if Text.AllBlank text.toList then .error (.emptyInfo (program ++ " info " ++ key))
  else .ok (.ofList (Text.answer text.toList))

theorem commandLine_info (b : Bazel) (key : String) :
    (b.invocation ["info", key]).commandLine = b.program ++ " info " ++ key := by
  apply String.toList_inj.mp
  simp [Invocation.commandLine, invocation]

theorem result_on_info (b : Bazel) (key : String) (s : Session) : ((b.info key).on s).1 =
    (b.runner.capture s.calls s.disk (b.invocation ["info", key])).result.bind (answerIn b.program key) := by
  rw [on_info]
  dsimp only
  cases (b.runner.capture s.calls s.disk (b.invocation ["info", key])).result with
  | error e => rfl
  | ok text =>
    dsimp only [Except.bind, answerIn]
    rw [Text.firstNonblank?_eq, commandLine_info]
    by_cases h : Text.AllBlank text.toList
    · simp only [if_pos h]
    · simp only [if_neg h]

theorem isAnswer_of_answerIn {program text : String} (h : answerIn program key text = .ok v) :
    Text.IsAnswer v.toList := by
  unfold answerIn at h
  split at h
  · cases h
  · next hb =>
    cases h
    rw [String.toList_ofList]
    exact Text.isAnswer_answer hb

theorem answerIn_eq_emptyInfo_iff {program text : String} :
    answerIn program key text = .error (.emptyInfo (program ++ " info " ++ key)) ↔ Text.AllBlank text.toList := by
  unfold answerIn
  split
  · next h => exact iff_of_true rfl h
  · next h => exact iff_of_false nofun h

theorem answerIn_of_not_allBlank {program text : String} (h : ¬ Text.AllBlank text.toList) :
    answerIn program key text = .ok (.ofList (Text.answer text.toList)) := if_neg h

theorem isAnswer_of_info (h : ((b.info key).on s).1 = .ok v) : Text.IsAnswer v.toList := by
  rw [result_on_info] at h
  cases hr : (b.runner.capture s.calls s.disk (b.invocation ["info", key])).result with
  | error e =>
    rw [hr] at h
    cases h
  | ok text =>
    rw [hr] at h
    exact isAnswer_of_answerIn h

theorem answerIn_of_isAnswer {program : String} (h : Text.IsAnswer v.toList) : answerIn program key v = .ok v := by
  rw [answerIn, if_neg h.not_allBlank, h.answer_eq, String.ofList_toList]

end Bazel

theorem Text.IsAnswer.bytes_ne_nil {v : String} (h : IsAnswer v.toList) : (Path.ofString v).bytes ≠ [] := by
  have hne := Bazel.encode_ne_nil h.ne_nil
  rwa [String.ofList_toList] at hne

/-- Where on the disk something is attempted. -/
def Attempt.path? : Attempt → Option Path
  | .call _ => none
  | .write p _ => some p
  | .makeDirectory p => some p

theorem Attempt.path?_place (p : Path) (content : Option String) : (Attempt.place p content).path? = some p := by
  cases content <;> rfl

namespace Setup

variable {b : Bazel} {c : Config} {o : Options} {g g' : Progress} {s s' : Session} {st : Step} {sts : List Step}
  {d : Disk} {w : Workspace} {q : Query} {v : String}

/-! ## No answer is blank -/

def Answers.Lines (a : Answers) : Prop := ∀ q v, a q = some v → Text.IsAnswer v.toList

theorem lines_perform (hg : g.answers.Lines) (h : (perform b c o g st).on s = (.ok g', s')) : g'.answers.Lines := by
  intro q v hv
  by_cases hst : st = .ask q
  · subst hst
    rw [on_perform_ask] at h
    split at h
    · next v' s₁ hi =>
      cases h
      obtain rfl : v' = v := by simpa [Progress.learn, Answers.learn] using hv
      exact Bazel.isAnswer_of_info (congrArg Prod.fst hi)
    · cases h
  · rw [(progress_of_perform h).1 q hst] at hv
    exact hg q v hv

theorem lines_follow (hg : g.answers.Lines) : (follow b c o sts g s).progress.answers.Lines := by
  induction sts generalizing g s with
  | nil => exact hg
  | cons st sts ih =>
    cases h : (perform b c o g st).on s with
    | mk r s' =>
      cases r with
      | error e =>
        rw [follow_cons_error h]
        exact hg
      | ok g' =>
        rw [follow_cons_ok h]
        exact ih (lines_perform hg h)

theorem lines_trail (b : Bazel) (c : Config) (o : Options) (s : Session) :
    (trail b c o s).progress.answers.Lines := by
  refine lines_follow fun q v hv => ?_
  cases hv

/-! ## The root -/

theorem root_of_place {i : Item} (ho : o.dryRun = false) (h : .place i ∈ (trail b c o s).tried) :
    ∃ v, (trail b c o s).progress.answers .workspace = some v := by
  rw [trail_really ho, ← calls_append] at h ⊢
  by_cases hcalls : (follow b c o (calls c) .start s).failure = none
  · obtain ⟨v, hv, _⟩ := progress_calls hcalls
    have htail : ∀ st ∈ steps.tail, st ≠ .ask .workspace := by decide
    refine ⟨v, ?_⟩
    rw [follow_append_of_done hcalls]
    refine (answers_follow _ htail _ _).trans ?_
    rw [hv]
    rfl
  · rw [follow_append_of_failure hcalls] at h
    cases item_calls _ ((tried_follow _ _ _).1.subset h)

theorem path_of_attempt {a : Answers} {x : Attempt} {p : Path} (hx : x ∈ st.attempts b c o a) (hp : x.path? = some p) :
    o.dryRun = false ∧ ∃ i, st = .place i ∧ p = a.root.join i.path := by
  cases st with
  | build s =>
    rw [List.mem_singleton.mp hx] at hp
    cases hp
  | ask q =>
    rw [List.mem_singleton.mp hx] at hp
    cases hp
  | place i =>
    cases ho : o.dryRun with
    | true => simp [Step.attempts, ho] at hx
    | false =>
      obtain rfl : x = .place (a.root.join i.path) (i.content c o a) := by simpa [Step.attempts, ho] using hx
      rw [Attempt.path?_place] at hp
      exact ⟨rfl, i, rfl, (Option.some.inj hp).symm⟩

/-- All that a run attempts on the disk it attempts below the root that was answered. -/
theorem path_of_run {x : Attempt} {p : Path} (hx : x ∈ ((run b c o).on (.ofDisk d)).2.attempts)
    (hp : x.path? = some p) : ∃ v i, answersIn ((run b c o).on (.ofDisk d)).2.log .workspace = some v ∧
      Text.IsAnswer v.toList ∧ p = (Path.ofString v).join (Item.path i) := by
  rw [on_run] at hx ⊢
  rw [attempts_trail] at hx
  obtain ⟨st, hst, hx⟩ := List.mem_flatMap.mp ((List.mem_append.mp hx).resolve_left List.not_mem_nil)
  obtain ⟨ho, i, rfl, rfl⟩ := path_of_attempt hx hp
  obtain ⟨v, hv⟩ := root_of_place ho hst
  refine ⟨v, i, ?_, lines_trail b c o _ _ _ hv, by rw [Answers.root_of_some hv]⟩
  rw [← answers_trail]
  exact hv

theorem root_of_success (h : ((run b c o).on (.ofDisk d)).1 = .ok w) :
    ∃ v, Text.IsAnswer v.toList ∧ w.root = .ofString v := by
  have hrun : (run b c o).on (.ofDisk d) = (.ok w, ((run b c o).on (.ofDisk d)).2) := Prod.ext h rfl
  have hanswers := (contents_of_success hrun).1 .workspace
  rw [on_run, ← answers_trail] at hanswers
  obtain ⟨v, hv⟩ := Option.isSome_iff_exists.mp hanswers
  rw [on_run] at h
  obtain ⟨_, rfl⟩ := failure_of_ok h
  exact ⟨v, lines_trail b c o _ _ _ hv, Answers.root_of_some hv⟩

end Setup

/-- **A query takes one line of what is printed.** It fails as its call fails, and it fails with a text that is all
blank. Otherwise it answers what stands behind the blanks in front, before the next line feed and without the blanks
at the end. That is one line without blanks around it, and asked again of itself it is the same. No run writes below
the empty path. -/
theorem Bazel.info_answers (b : Bazel) (key : String) (s : Session) (c : Config) (o : Setup.Options) (d : Disk) :
    let printed := (b.runner.capture s.calls s.disk (b.invocation ["info", key])).result
    let answered := ((b.info key).on s).1
    let ran := (Setup.run b c o).on (.ofDisk d)
    (∀ e, printed = .error e → answered = .error e) ∧
    (∀ text, printed = .ok text →
      (answered = .error (.emptyInfo (b.program ++ " info " ++ key)) ↔ ∀ c ∈ text.toList, Text.isBlank c = true) ∧
      (¬ (∀ c ∈ text.toList, Text.isBlank c = true) → answered = .ok (.ofList (Text.answer text.toList)))) ∧
    (∀ v, answered = .ok v → Text.IsAnswer v.toList ∧ ∀ (b' : Bazel) key' s',
      (b'.runner.capture s'.calls s'.disk (b'.invocation ["info", key'])).result = .ok v →
        ((b'.info key').on s').1 = .ok v) ∧
    (∀ w, ran.1 = .ok w → w.root.bytes ≠ []) ∧
    ∀ x ∈ ran.2.attempts, ∀ p, x.path? = some p → ∃ root : Path, ∃ i : Setup.Item,
      (Setup.answersIn ran.2.log .workspace).map Path.ofString = some root ∧ root.bytes ≠ [] ∧
        p = root.join i.path := by
  intro printed answered ran
  have hanswered : answered = printed.bind (answerIn b.program key) := result_on_info b key s
  refine ⟨fun e he => ?_, fun text htext => ?_, fun v hv => ?_, fun w hw => ?_, fun x hx p hp => ?_⟩
  · rw [hanswered, he]
    rfl
  · have hread : answered = answerIn b.program key text := by rw [hanswered, htext]; rfl
    rw [hread]
    exact ⟨answerIn_eq_emptyInfo_iff, fun h => answerIn_of_not_allBlank h⟩
  · have hline := isAnswer_of_info hv
    refine ⟨hline, fun b' key' s' hprinted => ?_⟩
    rw [result_on_info, hprinted]
    exact answerIn_of_isAnswer hline
  · obtain ⟨v, hv, hroot⟩ := Setup.root_of_success hw
    rw [hroot]
    exact hv.bytes_ne_nil
  · obtain ⟨v, i, hv, hline, hjoin⟩ := Setup.path_of_run hx hp
    exact ⟨.ofString v, i, by rw [hv, Option.map_some], hline.bytes_ne_nil, hjoin⟩

/-- White space that ends no line is dropped like any other; a mark that only looks like it is not. -/
example : Text.answer "\u2028\r\n\x0b /w\x85b \u200b\x85\r\n/x".toList = "/w\x85b \u200b".toList := by decide

end EclipseProject
