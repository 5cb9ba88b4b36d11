import EclipseProject.Config.Basic
import EclipseProject.Decimal.Shortest
import EclipseProject.Text.Quoted
import EclipseProject.Toml.Table

/-!
# From tables to configurations

Each key of a table sets a field, and fields without a key keep their defaults. The first key or value that does
not fit, in the order of the table and into the values as they are met, is the offence that is reported.
-/

namespace EclipseProject.Config

inductive Expected where
  | string
  | map
  | sequence
  deriving DecidableEq, Repr

def Expected.phrase : Expected → String
  | .string => "a string"
  | .map => "a map"
  | .sequence => "a sequence"

inductive Offence where
  | unknownField (key : String)
  | wrongType (found : String) (expected : Expected)
  deriving DecidableEq, Repr

def fieldNames : List String :=
  ["bazel", "default_project_name", "build", "deps_jar", "annotation_processors_jar", "apt_gen_src_dir"]

def Offence.message : Offence → String
  | .unknownField key =>
    "unknown field `" ++ key ++ "`, expected one of " ++ ", ".intercalate (fieldNames.map fun f => "`" ++ f ++ "`")
  | .wrongType found expected => "invalid type: " ++ found ++ ", expected " ++ expected.phrase

def describe : Toml.Value → String
  | .string s => "string " ++ Text.quoted s
  | .integer n => "integer `" ++ toString n ++ "`"
  | .float x => "floating point `" ++ x.toText ++ "`"
  | .boolean b => "boolean `" ++ (if b then "true" else "false") ++ "`"
  | .datetime _ => "map"
  | .array _ => "sequence"
  | .table _ => "map"

/-! ## Fields -/

def text : Toml.Value → Except Offence String
  | .string s => .ok s
  | v => .error (.wrongType (describe v) .string)

def targets : Toml.Value → Except Offence (List String)
  | .array vs => vs.mapM text
  | v => .error (.wrongType (describe v) .sequence)

def step (entry : String × Toml.Value) : Except Offence BuildStep := (targets entry.2).map (entry.1, ·)

/-- A date counts as a map that holds its text. -/
def plan : Toml.Value → Except Offence BuildPlan
  | .table entries => (entries.mapM step).map BuildPlan.ofList
  | .datetime d => .error (.wrongType (describe (.string d.text)) .sequence)
  | v => .error (.wrongType (describe v) .map)

def set (c : Config) (entry : String × Toml.Value) : Except Offence Config :=
  match entry.1 with
  | "bazel" => (text entry.2).map fun s => { c with bazel := s }
  | "default_project_name" => (text entry.2).map fun s => { c with defaultProjectName := s }
  | "build" => (plan entry.2).map fun p => { c with build := p }
  | "deps_jar" => (text entry.2).map fun s => { c with depsJar := s }
  | "annotation_processors_jar" => (text entry.2).map fun s => { c with annotationProcessorsJar := s }
  | "apt_gen_src_dir" => (text entry.2).map fun s => { c with aptGenSrcDir := s }
  | key => .error (.unknownField key)

def ofTable (entries : List (String × Toml.Value)) : Except Offence Config := entries.foldlM set default

end EclipseProject.Config
