import EclipseProject.Proofs.Bazel.Runners
import EclipseProject.Proofs.Setup.Order
import EclipseProject.Proofs.Text.Utf8

/-!
# What the calls of a run do

With a runner that leaves the disk alone, only what is placed changes the disk. With fixed answers, what a query or
a build comes to depends neither on the session nor on the options.
-/

namespace EclipseProject

namespace Bazel

variable {b : Bazel} {table : Outcomes}

/-- What a query answers, given the table. -/
def asked (b : Bazel) (table : Outcomes) (key : String) : Except Error String :=
  let i := b.invocation ["info", key]
  match table i with
  | .error f => .error (f.error i)
  | .ok text =>
    match Text.firstNonblank? text.toList with
    | none => .error (.emptyInfo i.commandLine)
    | some line => .ok (.ofList line)

theorem disk_info (hb : b.runner.LeavesDisk) (key : String) (s : Session) : ((b.info key).on s).2.disk = s.disk := by
  rw [on_info]
  dsimp only
  split
  · exact hb.capture _ _ _
  · split <;> exact hb.capture _ _ _

theorem result_info (hb : b.runner.AnswersFrom table) (key : String) (s : Session) :
    ((b.info key).on s).1 = b.asked table key := by
  unfold asked
  rw [on_info]
  dsimp only
  rw [hb.captured]
  cases table (b.invocation ["info", key]) with
  | error f => rfl
  | ok text =>
    simp only [Action.mapError_ok]
    cases Text.firstNonblank? text.toList <;> rfl

theorem encode_ne_nil {cs : List Char} (h : cs ≠ []) : Utf8.encode (.ofList cs) ≠ [] := by
  obtain ⟨c, rest, rfl⟩ := List.exists_cons_of_ne_nil h
  rw [Utf8.encode, String.toList_ofList, List.flatMap_cons]
  exact List.append_ne_nil_of_left_ne_nil (Utf8.encodeChar_ne_nil c) _

/-- No answer is blank. -/
theorem bytes_ne_nil_of_info {key v : String} {s s' : Session} (h : (b.info key).on s = (.ok v, s')) :
    (Path.ofString v).bytes ≠ [] := by
  rw [on_info] at h
  dsimp only at h
  split at h
  · cases h
  · split at h
    · cases h
    · next line hline =>
      cases h
      have hne := List.find?_some hline
      exact encode_ne_nil (by simpa using hne)

end Bazel

namespace Setup

variable {b : Bazel} {table : Bazel.Outcomes} {c : Config} {o : Options} {g g' : Progress} {s s' : Session} {st : Step}
  {sts : List Step} {e : Error}

/-! ## The disk -/

theorem disk_perform {x : Except Error Progress} (hb : b.runner.LeavesDisk) (hst : o.dryRun = true ∨ st.item? = none)
    (h : (perform b c o g st).on s = (x, s')) : s'.disk = s.disk := by
  cases st with
  | build st =>
    rw [on_perform_build] at h
    dsimp only at h
    split at h
    · cases h
      exact hb.stream _ _ _
    · cases h
      exact hb.stream _ _ _
  | ask q =>
    have hd := Bazel.disk_info hb q.key s
    rw [on_perform_ask] at h
    split at h
    · next v s₁ hi =>
      cases h
      rw [hi] at hd
      unfold announce
      split <;> exact hd
    · next e s₁ hi =>
      cases h
      rw [hi] at hd
      exact hd
  | place i =>
    obtain ho | hi := hst
    · rw [on_perform_place_of_dryRun ho] at h
      cases h
      rfl
    · cases hi

theorem disk_follow (hb : b.runner.LeavesDisk) (hst : ∀ st ∈ sts, o.dryRun = true ∨ st.item? = none) :
    (follow b c o sts g s).session.disk = s.disk ∧ (follow b c o sts g s).reached.disk = s.disk := by
  induction sts generalizing g s with
  | nil => exact ⟨rfl, rfl⟩
  | cons st sts ih =>
    cases h : (perform b c o g st).on s with
    | mk x s' =>
      have hd := disk_perform hb (hst st (by simp)) h
      cases x with
      | error e =>
        rw [follow_cons_error h]
        exact ⟨hd, rfl⟩
      | ok g' =>
        rw [follow_cons_ok h]
        obtain ⟨h₁, h₂⟩ := ih (g := g') (s := s') fun x hx => hst x (by simp [hx])
        exact ⟨h₁.trans hd, h₂.trans hd⟩

/-! ## Queries and builds -/

theorem result_perform_ask (hb : b.runner.AnswersFrom table) (q : Query) : ((perform b c o g (.ask q)).on s).1 =
    match b.asked table q.key with
    | .ok v => .ok (g.learn q v)
    | .error e => .error (.bazel e) := by
  have h := Bazel.result_info hb q.key s
  rw [on_perform_ask]
  split
  · next v s' hi =>
    rw [hi] at h
    simp [← h]
  · next e s' hi =>
    rw [hi] at h
    simp [← h]

theorem result_perform_build (hb : b.runner.AnswersFrom table) (st : BuildStep) :
    ((perform b c o g (.build st)).on s).1 =
      match table (b.invocation ("build" :: st.2)) with
      | .ok _ => .ok g
      | .error f => .error (.bazel (f.error (b.invocation ("build" :: st.2)))) := by
  rw [on_perform_build]
  dsimp only
  rw [hb.streamed]
  cases table (b.invocation ("build" :: st.2)) <;> rfl

/-- With fixed answers a call comes to the same in all sessions. -/
theorem result_perform_call {x x' : Except Error Progress} {s₁ s₁' : Session} (hb : b.runner.AnswersFrom table)
    (hst : st.item? = none) (h : (perform b c o g st).on s = (x, s₁)) (h' : (perform b c o g st).on s' = (x', s₁')) :
    x = x' := by
  have hsame : ((perform b c o g st).on s).1 = ((perform b c o g st).on s').1 := by
    cases st with
    | build st => rw [result_perform_build hb, result_perform_build hb]
    | ask q => rw [result_perform_ask hb, result_perform_ask hb]
    | place i => cases hst
  rw [h, h'] at hsame
  exact hsame

theorem answer_of_perform {q : Query} (h : (perform b c o g (.ask q)).on s = (.ok g', s')) :
    ∃ v, g' = g.learn q v ∧ (Path.ofString v).bytes ≠ [] := by
  rw [on_perform_ask] at h
  split at h
  · next v s₁ hi =>
    cases h
    exact ⟨v, rfl, Bazel.bytes_ne_nil_of_info hi⟩
  · cases h

theorem progress_builds (sts : List BuildStep) : (follow b c o (sts.map .build) g s).progress = g := by
  induction sts generalizing s with
  | nil => rfl
  | cons st sts ih =>
    cases h : (perform b c o g (.build st)).on s with
    | mk r s' =>
      cases r with
      | error e => rw [List.map_cons, follow_cons_error h]
      | ok g' =>
        have hg : g' = g := by
          rw [on_perform_build] at h
          dsimp only at h
          split at h
          · cases h
            rfl
          · cases h
        rw [List.map_cons, follow_cons_ok h, hg]
        exact ih

/-- Bazel fails to build what the configuration names. -/
def BuildFails (b : Bazel) (table : Bazel.Outcomes) (c : Config) (e : Error) : Prop :=
  ∃ st ∈ c.build.steps, ∃ f : Bazel.Failure, table (b.invocation ("build" :: st.2)) = .error f ∧
    e = .bazel (f.error (b.invocation ("build" :: st.2)))

theorem mem_of_failure {s₁ : Session} (h : (follow b c o sts g s).failure = some (st, e, s₁)) : st ∈ sts := by
  have ht := (tried_follow (b := b) (c := c) (o := o) sts g s).1
  rw [Trail.tried, h] at ht
  exact ht.subset (by simp)

theorem buildFails_of_failure (hb : b.runner.AnswersFrom table) {s₁ : Session}
    (h : (follow b c o (builds c) g s).failure = some (st, e, s₁)) : BuildFails b table c e := by
  obtain ⟨x, hx, rfl⟩ := List.mem_map.mp (mem_of_failure h)
  have hf := failsWith_follow _ _ _ h
  cases hf with
  | @build _ e he =>
    rw [hb.streamed] at he
    cases ht : table (b.invocation ("build" :: x.2)) with
    | ok text =>
      rw [ht] at he
      cases he
    | error f =>
      rw [ht] at he
      cases he
      exact ⟨x, hx, f, ht, rfl⟩

/-! ## The calls of a real run before its first item -/

theorem trail_really (ho : o.dryRun = false) : trail b c o s = follow b c o (builds c ++ steps) .start s := by
  unfold trail script opening
  simp [ho]

/-- The builds and the question for the root. -/
def calls (c : Config) : List Step := builds c ++ [.ask .workspace]

theorem calls_append : calls c ++ steps.tail = builds c ++ steps := by
  simp [calls, steps]

theorem item_builds : ∀ st ∈ builds c, st.item? = none :=
  List.filterMap_eq_nil_iff.mp (items_builds c)

theorem item_calls : ∀ st ∈ calls c, st.item? = none := by
  intro st hst
  obtain hst | hst := List.mem_append.mp hst
  · exact item_builds st hst
  · rw [List.mem_singleton.mp hst]
    rfl

theorem disk_calls (hb : b.runner.LeavesDisk) : (follow b c o (calls c) .start s).session.disk = s.disk ∧
    (follow b c o (calls c) .start s).reached.disk = s.disk :=
  disk_follow hb fun st hst => Or.inr (item_calls st hst)

theorem progress_calls (h : (follow b c o (calls c) .start s).failure = none) :
    ∃ v, (follow b c o (calls c) .start s).progress = Progress.start.learn .workspace v ∧
      (Path.ofString v).bytes ≠ [] := by
  have hbuilds : (follow b c o (builds c) .start s).failure = none := failure_of_append h
  rw [calls, follow_append_of_done hbuilds, builds, progress_builds] at h ⊢
  generalize (follow b c o (c.build.steps.map .build) .start s).reached = s₁ at h ⊢
  cases hp : (perform b c o .start (.ask .workspace)).on s₁ with
  | mk x s₂ =>
  cases x with
  | error e =>
    rw [follow_cons_error hp] at h
    cases h
  | ok g' =>
    obtain ⟨v, rfl, hv⟩ := answer_of_perform hp
    rw [follow_cons_ok hp]
    exact ⟨v, rfl, hv⟩

end Setup

end EclipseProject
