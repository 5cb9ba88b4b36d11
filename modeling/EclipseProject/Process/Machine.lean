import EclipseProject.Bazel.Basic

/-!
# Starting programs

A launcher tells what comes of starting a program, and bazel can be run by any of them. A machine is one: a program
named with a slash is found on the disk, any other in the directories of the search path, and what it does is given
by the contents of its file.
-/

namespace EclipseProject

structure Ending where
  output : List UInt8
  status : WaitStatus
  deriving DecidableEq, Repr

/-- A program cannot be started, or it ends and leaves a disk. That may depend on the calls before. -/
structure Launcher where
  launch : List Call → Disk → Bazel.Invocation → Except SystemError (Ending × Disk)

namespace Launcher

def verdict (i : Bazel.Invocation) (ending : Ending) : Except Bazel.Error Unit :=
  if ending.status.success then .ok () else .error (.exitStatus i.commandLine ending.status)

/-- Captured output is read as text and not shown. -/
def capture (l : Launcher) (calls : List Call) (d : Disk) (i : Bazel.Invocation) : Bazel.Reply String :=
  match l.launch calls d i with
  | .error cause => ⟨.error (.spawn i.program cause), [], d⟩
  | .ok (ending, d') => ⟨(verdict i ending).map fun _ => Utf8.decode ending.output, [], d'⟩

def stream (l : Launcher) (calls : List Call) (d : Disk) (i : Bazel.Invocation) : Bazel.Reply Unit :=
  match l.launch calls d i with
  | .error cause => ⟨.error (.spawn i.program cause), [], d⟩
  | .ok (ending, d') => ⟨verdict i ending, ending.output, d'⟩

def runner (l : Launcher) : Bazel.Runner := ⟨l.capture, l.stream⟩

end Launcher

structure Machine where
  searchPath : List Path
  behaviour : List UInt8 → Option (List String → Ending)

namespace Machine

def executable (d : Disk) (p : Path) : Except SystemError (List UInt8) := do
  match d.entry? (← d.resolve p) with
  | some (.file contents true) => return contents
  | some _ => throw .permissionDenied
  | none => throw .notFound

/-- The first program found. Places without one are passed over, but if it stood in one and could not be
executed, that is the answer in the end. -/
def search (d : Disk) (program : Path) : List Path → Except SystemError (List UInt8)
  | [] => .error .notFound
  | place :: more =>
    match executable d (place.join program) with
    | .ok contents => .ok contents
    | .error e =>
      if e = .notFound ∨ e = .notDirectory then search d program more
      else if e = .permissionDenied then
        match search d program more with
        | .error .notFound => .error .permissionDenied
        | found => found
      else .error e

def find (m : Machine) (d : Disk) (program : Path) : Except SystemError (List UInt8) :=
  if program.bytes = [] then .error .notFound
  else if Path.slash ∈ program.bytes then executable d program
  else search d program m.searchPath

def launch (m : Machine) (d : Disk) (i : Bazel.Invocation) : Except SystemError Ending :=
  if (i.program :: i.arguments).any (·.toList.contains '\x00') then .error .nulInArgument
  else do
    let contents ← m.find d (.ofString i.program)
    match m.behaviour contents with
    | some run => return run i.arguments
    | none => throw .invalidProgram

/-- The processes leave the disk alone. -/
def launcher (m : Machine) : Launcher := ⟨fun _ d i => (m.launch d i).map (·, d)⟩

def runner (m : Machine) : Bazel.Runner := m.launcher.runner

end Machine

end EclipseProject
