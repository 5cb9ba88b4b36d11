import EclipseProject.Session
import EclipseProject.Text.Blank

/-!
# Bazel's queries and builds

Bazel is a program name together with a runner. The runner answers each call; its answer may depend on the calls
before and on the disk, and it may change the disk.
-/

namespace EclipseProject

namespace Bazel

structure Reply (α : Type) where
  result : Except Error α
  shown : List UInt8
  disk : Disk

def Reply.started {α : Type} (r : Reply α) : Bool :=
  match r.result with
  | .error e => !e.isSpawn
  | .ok _ => true

structure Runner where
  capture : List Call → Disk → Invocation → Reply String
  stream : List Call → Disk → Invocation → Reply Unit

end Bazel

structure Bazel where
  program : String
  runner : Bazel.Runner

namespace Bazel

def invocation (b : Bazel) (arguments : List String) : Invocation := ⟨b.program, arguments⟩

/-- The session in which a call was answered so: it is recorded, with what it showed and did to the disk. -/
def Reply.leave {α : Type} (r : Reply α) (i : Invocation) (s : Session) : Session :=
  { s.attempting (.call i) with disk := r.disk, calls := s.calls ++ [⟨i, r.started⟩], shown := s.shown ++ r.shown }

def call {α : Type} (run : List Call → Disk → Invocation → Reply α) (i : Invocation) : Action Error α :=
  Action.ofFun fun s =>
    let reply := run s.calls s.disk i
    (reply.result, reply.leave i s)

/-- The first line of the answer that is not blank, trimmed. -/
def info (b : Bazel) (key : String) : Action Error String := do
  let i := b.invocation ["info", key]
  let text ← call b.runner.capture i
  match Text.firstNonblank? text.toList with
  | none => throw (.emptyInfo i.commandLine)
  | some line =>
    Action.note (.answered key (.ofList line))
    return .ofList line

def build (b : Bazel) (targets : List String) : Action Error Unit := do
  let i := b.invocation ("build" :: targets)
  Action.note (.running i.commandLine)
  call b.runner.stream i

/-! ## What a call, a query and a build come to -/

@[simp] theorem on_call {α : Type} (run : List Call → Disk → Invocation → Reply α) (i : Invocation) (s : Session) :
    (call run i).on s = ((run s.calls s.disk i).result, (run s.calls s.disk i).leave i s) := rfl

theorem on_build (b : Bazel) (targets : List String) (s : Session) : (b.build targets).on s =
    let i := b.invocation ("build" :: targets)
    let r := b.runner.stream s.calls s.disk i
    (r.result, r.leave i { s with log := s.log ++ [.running i.commandLine] }) := by
  simp [build]

theorem on_info (b : Bazel) (key : String) (s : Session) : (b.info key).on s =
    let i := b.invocation ["info", key]
    let r := b.runner.capture s.calls s.disk i
    match r.result with
    | .error e => (.error e, r.leave i s)
    | .ok text =>
      match Text.firstNonblank? text.toList with
      | none => (.error (.emptyInfo i.commandLine), r.leave i s)
      | some line =>
        (.ok (.ofList line), { r.leave i s with log := (r.leave i s).log ++ [.answered key (.ofList line)] }) := by
  unfold info
  rw [Action.on_bind, on_call]
  dsimp only
  cases (b.runner.capture s.calls s.disk (b.invocation ["info", key])).result with
  | error e => rfl
  | ok text =>
    dsimp only
    cases Text.firstNonblank? text.toList <;> rfl

end Bazel

end EclipseProject
