import EclipseProject.Bazel.Basic
import EclipseProject.Config.Basic
import EclipseProject.Document.Classpath
import EclipseProject.Document.Description
import EclipseProject.Document.Factorypath
import EclipseProject.Document.Preferences
import EclipseProject.Staging.Preview
import EclipseProject.Workspace

/-!
# Setting up a workspace

Bazel builds what the configuration names, then tells where the workspace and its products lie, and the project
files are written into the workspace one by one. The first failure ends the run; what was written before stays.
-/

namespace EclipseProject.Setup

inductive Error where
  | bazel (e : Bazel.Error)
  | file (e : FileError)
  deriving DecidableEq, Repr

def Error.diagnostic : Error → Diagnostic
  | .bazel e => e.diagnostic
  | .file e => e.diagnostic

structure Options where
  projectName : Option String
  dryRun : Bool
  deriving DecidableEq, Repr

def classpathFile : Path := .ofString ".classpath"
def projectFile : Path := .ofString ".project"
def factorypathFile : Path := .ofString ".factorypath"
def settingsDirectory : Path := .ofString ".settings"
def compilerPreferencesFile : Path := settingsDirectory.join (.ofString "org.eclipse.jdt.core.prefs")
def processingPreferencesFile : Path := settingsDirectory.join (.ofString "org.eclipse.jdt.apt.core.prefs")

def buildSteps (b : Bazel) : List BuildStep → Action Bazel.Error Unit
  | [] => return
  | s :: ss => do
    Action.note (.building s.1)
    b.build s.2
    buildSteps b ss

def query (b : Bazel) (key : String) : Action Error String := Action.wrap .bazel (b.info key)

def within (x : Workspace.Operation) : Action Error Workspace := Action.wrap .file x

theorem on_within (x : Workspace.Operation) (s : Session) : (within x).on s =
    match x.on s with
    | ⟨.ok _, w, s'⟩ => (.ok w, s')
    | ⟨.error e, _, s'⟩ => (.error (.file e), s') := by
  rw [within, Action.on_wrap, Workspace.Operation.on_orFail]
  cases x.on s with
  | mk answer w s' => cases answer <;> rfl

def projectName (c : Config) (o : Options) : String := o.projectName.getD c.defaultProjectName

def generate (b : Bazel) (c : Config) (o : Options) : Action Error Workspace := do
  let root ← query b "workspace"
  let w := Workspace.ofRoot (.ofString root) o.dryRun
  Action.note (.writingInto root)
  let genfiles ← query b "bazel-genfiles"
  let w ← within (w.writeFile classpathFile (Classpath.ofProject genfiles c.depsJar))
  let w ← within (w.writeFile projectFile (Description.document (projectName c o)))
  let bin ← query b "bazel-bin"
  let processorsJar := (Path.ofString bin).join (.ofString c.annotationProcessorsJar)
  let w ← within (w.writeFile factorypathFile (Factorypath.ofProject processorsJar))
  let w ← within (w.createDirectory settingsDirectory)
  let w ← within (w.writeFile compilerPreferencesFile Preferences.compiler)
  within (w.writeFile processingPreferencesFile (Preferences.annotationProcessing c.aptGenSrcDir))

def run (b : Bazel) (c : Config) (o : Options) : Action Error Workspace := do
  if o.dryRun then Action.note .skippingBuild else Action.wrap .bazel (buildSteps b c.build.steps)
  generate b c o

/-- A dry run that succeeds also shows what it would have written. -/
def runShown (colored : Bool) (b : Bazel) (c : Config) (o : Options) : Action Error Workspace := do
  let w ← run b c o
  if o.dryRun then Action.emit (Utf8.encode (Staging.preview colored w.staged w.root))
  return w

end EclipseProject.Setup
