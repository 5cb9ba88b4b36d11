import EclipseProject.Config.Shape
import EclipseProject.FileError
import EclipseProject.Session
import EclipseProject.Toml.Document

/-!
# Loading the configuration

A file that is asked for must be there. Otherwise the file in the directory is read if there is one, and the
defaults hold if there is none.
-/

namespace EclipseProject.Config

inductive Error where
  | file (e : FileError)
  | malformed (path : Path)
  | misshapen (path : Path) (o : Offence)
  deriving DecidableEq, Repr

def Error.diagnostic : Error → Diagnostic
  | .file e => e.diagnostic
  | .malformed path => parsing path none
  | .misshapen path o => parsing path (some o.message)
where
  parsing (path : Path) (source : Option String) : Diagnostic :=
    ⟨"Parsing error: toml on '" ++ path.display ++ "'", "setup_eclipse::parse",
      "Review the configuration file, every key in it is optional", source⟩

def fileName : String := "setup-eclipse.toml"

def ofText (path : Path) (content : String) : Except Error Config :=
  match Toml.parse content with
  | none => .error (.malformed path)
  | some entries => (ofTable entries).mapError (.misshapen path)

def readText (d : Disk) (path : Path) : Except SystemError String := do
  match Utf8.decode? (← d.readFile path) with
  | some s => return s
  | none => throw .invalidText

def ofFile (d : Disk) (path : Path) : Except Error Config :=
  match readText d path with
  | .error cause => .error (.file ⟨.read, path, cause⟩)
  | .ok content => ofText path content

def load (explicit : Option Path) (dir : Path) : Action Error Config := do
  let d := (← Action.look).disk
  match explicit with
  | some path =>
    Action.note (.loading path)
    Action.result (ofFile d path)
  | none =>
    let candidate := dir.join (.ofString fileName)
    if d.isFile candidate then
      Action.note (.loading candidate)
      Action.result (ofFile d candidate)
    else
      Action.note (.usingDefaults candidate)
      return default

end EclipseProject.Config
