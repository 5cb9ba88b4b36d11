import EclipseProject.CommandLine.Arguments
import EclipseProject.CommandLine.Help
import EclipseProject.Config.Load

/-!
# Runs of the command

Arguments are read first, then the configuration, then the workspace is set up. Each stage starts only if the one
before it succeeded.
-/

namespace EclipseProject.CommandLine

inductive Failure where
  | usage (e : UsageError)
  | config (e : Config.Error)
  | setup (e : Setup.Error)
  deriving DecidableEq, Repr

def Failure.exitCode : Failure → Nat
  | .usage _ => 2
  | .config _ => 1
  | .setup _ => 1

def Failure.complaint (colored : Bool) : Failure → String
  | .usage e => Message.render colored (.styled .alarm "error:" :: .plain " " :: e.message)
  | .config e => "Error: " ++ Style.red.paint colored e.diagnostic.code
  | .setup e => "Error: " ++ Style.red.paint colored e.diagnostic.code

def configurationDirectory : Path := .ofString "."

def execute (r : Bazel.Runner) (colored : Bool) (a : Arguments) : Action Failure Unit := do
  Action.note .verboseMode
  let c ← Action.wrap .config (Config.load (a.configuration.map .ofString) configurationDirectory)
  let _ ← Action.wrap .setup (Setup.runShown colored ⟨c.bazel, r⟩ c a.options)

def run (r : Bazel.Runner) (colored : Bool) (arguments : List String) : Action Failure Unit :=
  match Arguments.parse arguments with
  | .ok a => execute r colored a
  | .error .help => Action.emit (Utf8.encode (helpText.render colored))
  | .error .version => Action.emit (Utf8.encode versionText)
  | .error (.usage e) => throw (.usage e)

def exitCode (r : Except Failure Unit) : Nat :=
  match r with
  | .ok _ => 0
  | .error f => f.exitCode

end EclipseProject.CommandLine
