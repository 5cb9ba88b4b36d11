import EclipseProject.Bazel.AnswerTable

/-!
# Runners that leave the disk alone

A runner with a fixed table of answers gives them whatever was called before and whatever the disk holds.
-/

namespace EclipseProject.Bazel

structure Runner.LeavesDisk (r : Runner) : Prop where
  capture : ∀ calls d i, (r.capture calls d i).disk = d
  stream : ∀ calls d i, (r.stream calls d i).disk = d

abbrev Outcomes := Invocation → Except Failure String

structure Runner.AnswersFrom (r : Runner) (table : Outcomes) : Prop extends r.LeavesDisk where
  captured : ∀ calls d i, (r.capture calls d i).result = (table i).mapError (Failure.error i)
  streamed : ∀ calls d i, (r.stream calls d i).result = ((table i).map fun _ => ()).mapError (Failure.error i)

def AnswerTable.outcomes (t : AnswerTable) : Outcomes := fun i => (t.outcome i).map Utf8.decode

theorem AnswerTable.answersFrom_runner (t : AnswerTable) : t.runner.AnswersFrom t.outcomes := by
  refine { capture := fun _ _ _ => rfl, stream := fun _ _ _ => rfl, captured := fun _ _ i => ?_,
           streamed := fun _ _ i => ?_ }
  all_goals
    simp only [AnswerTable.runner, AnswerTable.reply, AnswerTable.outcomes]
    cases t.outcome i <;> rfl

theorem leavesDisk_runner (m : Machine) : m.runner.LeavesDisk := by
  refine ⟨fun calls d i => ?_, fun calls d i => ?_⟩
  all_goals
    simp only [Machine.runner, Machine.launcher, Launcher.runner, Launcher.capture, Launcher.stream]
    cases m.launch d i <;> rfl

end EclipseProject.Bazel
