import EclipseProject.Path.Basic
import EclipseProject.Style

/-!
# Log records
-/

namespace EclipseProject.Log

inductive Verb where
  | create
  | overwrite
  deriving DecidableEq, Repr

inductive Record where
  | verboseMode
  | answered (key value : String)
  | running (command : String)
  | building (step : String)
  | skippingBuild
  | writingInto (root : String)
  | usingDefaults (candidate : Path)
  | loading (configuration : Path)
  | ensured (directory : Path)
  | wrote (verb : Verb) (file : Path)
  deriving DecidableEq, Repr

inductive Level where
  | debug
  | info
  deriving DecidableEq, Repr

def Level.word : Level → String
  | .debug => "DEBUG"
  | .info => "INFO"

def Record.level : Record → Level
  | .wrote .. => .info
  | _ => .debug

def Verb.text (colored : Bool) : Verb → String
  | .create => Style.green.paint colored "create"
  | .overwrite => Style.yellow.paint colored "overwrite"

def Record.message (colored : Bool) : Record → String
  | .verboseMode => "executing in verbose mode"
  | .answered key value => "bazel info " ++ key ++ " = " ++ value
  | .running command => "running " ++ command
  | .building step => "building " ++ step
  | .skippingBuild => "dry run, skipping bazel build"
  | .writingInto root => "writing eclipse files into " ++ root
  | .usingDefaults candidate => "no " ++ candidate.display ++ " found, using defaults"
  | .loading configuration => "loading configuration from " ++ configuration.display
  | .ensured directory => "ensured directory " ++ directory.display
  | .wrote verb file => verb.text colored ++ " " ++ file.display

def Record.line (colored : Bool) (r : Record) : String := r.level.word ++ " " ++ r.message colored

end EclipseProject.Log
