import EclipseProject.Bazel.AnswerTable
import EclipseProject.CommandLine.Run

/-!
# The command

Bazel is asked beforehand: its answers come on standard input, in the lines `key: value` that it lists. The run
itself takes place on a disk in memory, and what it wrote there is then written to the real one.
-/

namespace EclipseProject.CommandLine

def listedAnswers (listing : String) : Bazel.AnswerTable :=
  let answer (line : List Char) : String × Except Bazel.Failure (List UInt8) :=
    (.ofList (line.takeWhile (· ≠ ':')), .ok (Utf8.encode (.ofList ((line.dropWhile (· ≠ ':')).drop 1))))
  ⟨(Text.lines listing.toList).map answer, [], []⟩

/-- The path with the directory it lies in, if there is a file, copied into the disk. -/
def copyIn (d : Disk) (p : Path) : IO Disk := do
  try
    let bytes ← IO.FS.readBinFile p.display
    let d := (p.parent?.map fun q => (d.ensureDirectory q).2).getD d
    match d.writeFile p bytes.toList with
    | .ok d => return d
    | .error _ => return d
  catch _ => return d

/-- Does again on the real disk what a record of the log says was done. -/
def writeOut (s : Session) : Log.Record → IO Unit
  | .ensured p => IO.FS.createDirAll p.display
  | .wrote _ p =>
    match s.disk.readFile p with
    | .ok bytes => IO.FS.writeBinFile p.display ⟨bytes.toArray⟩
    | .error _ => return
  | _ => return

def runOnce (arguments : List String) (listing : String) : IO UInt32 := do
  let table := listedAnswers listing
  let (verbose, file) := match Arguments.parse arguments with
    | .ok a => (a.verbose, a.configuration.getD Config.fileName)
    | .error _ => (false, Config.fileName)
  let disk ← copyIn .empty (.ofString file)
  let root := ((table.answer "workspace").toOption.bind fun b => Text.firstNonblank? (Utf8.decode b).toList).getD []
  let disk := (disk.ensureDirectory (.ofString (.ofList root))).2
  let (result, session) := (run table.runner false arguments).on (.ofDisk disk)
  if verbose then session.log.forM fun r => IO.eprintln (r.line false)
  session.log.forM (writeOut session)
  IO.print (Utf8.decode session.shown)
  match result with
  | .ok _ => return 0
  | .error f =>
    IO.eprintln (f.complaint false)
    return f.exitCode.toUInt32

end EclipseProject.CommandLine

def main (arguments : List String) : IO UInt32 := do
  let stops := match EclipseProject.CommandLine.Arguments.parse arguments with
    | .ok _ => false
    | .error _ => true
  let listing ← if stops then pure "" else (← IO.getStdin).readToEnd
  EclipseProject.CommandLine.runOnce arguments listing
