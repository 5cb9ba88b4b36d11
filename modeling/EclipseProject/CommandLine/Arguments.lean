import EclipseProject.CommandLine.Message
import EclipseProject.Setup

/-!
# Command-line arguments

Arguments are read from left to right. The value of the configuration option may follow as an argument of its
own; it is checked when the next option or name is met, or at the end. Requests for help or the version are
answered when they are met.
-/

namespace EclipseProject.CommandLine

inductive Switch where
  | verbose
  | dryRun
  | help
  | version
  deriving DecidableEq, Repr

def Switch.ofLong? (name : String) : Option Switch :=
  match name with
  | "verbose" => some .verbose
  | "dry-run" => some .dryRun
  | "help" => some .help
  | "version" => some .version
  | _ => none

def Switch.ofShort? (c : Char) : Option Switch :=
  if c = 'v' then some .verbose else if c = 'h' then some .help else if c = 'V' then some .version else none

inductive UsageError where
  | unexpectedArgument (argument : String)
  | unexpectedValue (value option : String)
  | repeated (option : String)
  | missingConfiguration
  deriving DecidableEq, Repr

def configurationOption : String := "--config <FILE>"

/-- What was typed stands in yellow, what could have been in bold. -/
def UsageError.message : UsageError → Message
  | .unexpectedArgument a => [.plain "unexpected argument '", .styled .yellow a, .plain "' found"]
  | .unexpectedValue v o =>
    [.plain "unexpected value '", .styled .yellow v, .plain "' for '", .styled .bold o,
      .plain "' found; no more were expected"]
  | .repeated o => [.plain "the argument '", .styled .yellow o, .plain "' cannot be used multiple times"]
  | .missingConfiguration =>
    [.plain "a value is required for '", .styled .bold configurationOption, .plain "' but none was supplied"]

inductive Stop where
  | help
  | version
  | usage (e : UsageError)
  deriving DecidableEq, Repr

inductive Pending where
  | nothing
  | value
  | check (value : String)
  deriving DecidableEq, Repr

structure Arguments where
  verbose : Bool
  dryRun : Bool
  configuration : Option String
  projectName : Option String
  pending : Pending
  deriving DecidableEq, Repr

namespace Arguments

def initial : Arguments := ⟨false, false, none, none, .nothing⟩

def fail (e : UsageError) : Except Stop Arguments := .error (.usage e)

def setConfiguration (a : Arguments) (file : String) : Except Stop Arguments :=
  if a.configuration.isSome then fail (.repeated configurationOption)
  else if file = "" then fail .missingConfiguration
  else .ok { a with configuration := some file }

def settle (a : Arguments) : Except Stop Arguments :=
  match a.pending with
  | .nothing => .ok a
  | .value => fail .missingConfiguration
  | .check file => { a with pending := .nothing }.setConfiguration file

def attachConfiguration (a : Arguments) (file : String) : Except Stop Arguments := do
  (← a.settle).setConfiguration file

def awaitConfiguration (a : Arguments) : Except Stop Arguments := do
  return { ← a.settle with pending := .value }

def switch (a : Arguments) (s : Switch) : Except Stop Arguments := do
  let a ← a.settle
  match s with
  | .verbose => if a.verbose then fail (.repeated "--verbose") else return { a with verbose := true }
  | .dryRun => if a.dryRun then fail (.repeated "--dry-run") else return { a with dryRun := true }
  | .help => throw .help
  | .version => throw .version

def addName (a : Arguments) (name : String) : Except Stop Arguments := do
  if a.projectName.isSome then fail (.unexpectedArgument name)
  else return { ← a.settle with projectName := some name }

/-- An argument that starts with two hyphens, from behind them. -/
def readLong (a : Arguments) (cs : List Char) : Except Stop Arguments :=
  let name := String.ofList (cs.takeWhile (· ≠ '='))
  let value? := match cs.dropWhile (· ≠ '=') with
    | [] => none
    | _ :: value => some (String.ofList value)
  match Switch.ofLong? name, value? with
  | some s, none => a.switch s
  | some _, some value => fail (.unexpectedValue value ("--" ++ name))
  | none, value? =>
    if name = "config" then
      match value? with
      | some file => a.attachConfiguration file
      | none => a.awaitConfiguration
    else fail (.unexpectedArgument ("--" ++ name))

/-- The letters behind one hyphen. What follows the letter of the configuration option is its value. -/
def readShort (a : Arguments) : List Char → Except Stop Arguments
  | [] => .ok a
  | 'c' :: [] => a.awaitConfiguration
  | 'c' :: '=' :: file => a.attachConfiguration (.ofList file)
  | 'c' :: file => a.attachConfiguration (.ofList file)
  | c :: rest =>
    match Switch.ofShort? c with
    | some s => do readShort (← a.switch s) rest
    | none => fail (.unexpectedArgument (.ofList ['-', c]))

/-- A single hyphen is no option but a value or a name. -/
def readPlain (a : Arguments) (argument : String) : Except Stop Arguments :=
  if a.pending = .value then .ok { a with pending := .check argument } else a.addName argument

/-- Behind two hyphens alone there are only names. -/
def read (a : Arguments) : List String → Except Stop Arguments
  | [] => a.settle
  | argument :: more =>
    match argument.toList with
    | ['-', '-'] => do (← more.foldlM addName a).settle
    | '-' :: '-' :: cs => do (← a.readLong cs).read more
    | '-' :: c :: cs => do (← a.readShort (c :: cs)).read more
    | _ => do (← a.readPlain argument).read more

def parse (arguments : List String) : Except Stop Arguments := initial.read arguments

def options (a : Arguments) : Setup.Options := ⟨a.projectName, a.dryRun⟩

end Arguments

end EclipseProject.CommandLine
