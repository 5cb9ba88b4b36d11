import EclipseProject.Diagnostic
import EclipseProject.Process.WaitStatus
import EclipseProject.SystemError

/-!
# Invocations of bazel and how they fail
-/

namespace EclipseProject.Bazel

structure Invocation where
  program : String
  arguments : List String
  deriving DecidableEq, Repr

/-- The program and its arguments with one space between them, nothing quoted. -/
def Invocation.commandLine (i : Invocation) : String := " ".intercalate (i.program :: i.arguments)

inductive Error where
  | spawn (program : String) (cause : SystemError)
  | exitStatus (command : String) (status : WaitStatus)
  | emptyInfo (command : String)
  deriving DecidableEq, Repr

def Error.isSpawn : Error → Bool
  | .spawn .. => true
  | _ => false

def Error.diagnostic : Error → Diagnostic
  | .spawn program cause =>
    ⟨"failed to spawn `" ++ program ++ "`", "setup_eclipse::bazel::spawn",
      "Make sure bazel is installed and on your PATH, or set `bazel` in setup-eclipse.toml", some cause.message⟩
  | .exitStatus command status =>
    ⟨"`" ++ command ++ "` exited with " ++ status.message, "setup_eclipse::bazel::exit_status",
      "A working bazel build is required before generating eclipse files", none⟩
  | .emptyInfo command =>
    ⟨"`" ++ command ++ "` printed nothing", "setup_eclipse::bazel::empty_info",
      "Check that the key is one `bazel info` understands", none⟩

end EclipseProject.Bazel
