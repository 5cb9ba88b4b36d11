import EclipseProject.Bazel.Basic
import EclipseProject.Process.Machine

/-!
# A bazel that answers from a table

The table gives the answer to each query and names the targets that cannot be built. It serves as a runner, and
as the behaviour of a program.
-/

namespace EclipseProject.Bazel

inductive Failure where
  | status (w : WaitStatus)
  | spawn (cause : SystemError)
  deriving DecidableEq, Repr

def unknownKey : WaitStatus := .ofExitCode 2

def Failure.error (i : Invocation) : Failure → Error
  | .status w => .exitStatus i.commandLine w
  | .spawn cause => .spawn i.program cause

/-- A program that ends with this status: killed by the signal in it, or else with its exit code. -/
def Failure.ending (output : List UInt8) : Failure → Ending
  | .status w =>
    let signal := w.bits % 0x80
    ⟨output, if signal = 0 then .ofExitCode (w.bits >>> 8).toUInt8 else ⟨signal⟩⟩
  | .spawn _ => ⟨output, unknownKey⟩

structure AnswerTable where
  info : List (String × Except Failure (List UInt8))
  broken : List (String × Failure)
  buildOutput : List UInt8

namespace AnswerTable

def answer (t : AnswerTable) (key : String) : Except Failure (List UInt8) :=
  (List.lookup key t.info).getD (.error (.status unknownKey))

/-- The first of the targets that cannot be built decides how the build fails. -/
def failure? (t : AnswerTable) (targets : List String) : Option Failure := targets.findSome? (List.lookup · t.broken)

def outcome (t : AnswerTable) (i : Invocation) : Except Failure (List UInt8) :=
  match i.arguments with
  | "info" :: key :: _ => t.answer key
  | "build" :: targets =>
    match t.failure? targets with
    | some f => .error f
    | none => .ok t.buildOutput
  | _ => .error (.status unknownKey)

def reply (t : AnswerTable) (i : Invocation) : Except Error (List UInt8) := (t.outcome i).mapError (Failure.error i)

def runner (t : AnswerTable) : Runner where
  capture _ d i := ⟨(t.reply i).map Utf8.decode, [], d⟩
  stream _ d i := ⟨(t.reply i).map fun _ => (), [], d⟩

def behaviour (t : AnswerTable) : List String → Ending
  | "info" :: key :: _ =>
    match t.answer key with
    | .ok output => ⟨output, .ofExitCode 0⟩
    | .error f => f.ending []
  | "build" :: targets =>
    match t.failure? targets with
    | some f => f.ending t.buildOutput
    | none => ⟨t.buildOutput, .ofExitCode 0⟩
  | _ => ⟨[], unknownKey⟩

end AnswerTable

end EclipseProject.Bazel
