import EclipseProject.Diagnostic
import EclipseProject.Path.Basic
import EclipseProject.SystemError

/-!
# Failed file operations
-/

namespace EclipseProject

inductive FileOperation where
  | read
  | write
  | makeDirectory
  deriving DecidableEq, Repr

def FileOperation.phrase : FileOperation → String
  | .read => "reading a file"
  | .write => "writing a file"
  | .makeDirectory => "creating a directory"

structure FileError where
  operation : FileOperation
  path : Path
  cause : SystemError
  deriving DecidableEq, Repr

def FileError.diagnostic (e : FileError) : Diagnostic :=
  ⟨"I/O error: " ++ e.operation.phrase ++ " on path '" ++ e.path.display ++ "'", "setup_eclipse::io",
    "Check file permissions and that the bazel workspace is writable.", some e.cause.message⟩

end EclipseProject
