import EclipseProject.Toml.Table

/-!
# Values

The first character tells what a value is. Arrays may go over several lines, inline tables may not.
-/

namespace EclipseProject.Toml

def keyword (word : String) (v : Value) (cs : List Char) : Option (Value × List Char) :=
  if word.toList.isPrefixOf cs then some (v, cs.drop word.length) else none

def dateOrNumber (cs : List Char) : Option (Value × List Char) :=
  if startsDate cs || startsTime cs then (datetime cs).map fun x => (.datetime x.1, x.2)
  else (number cs).map fun x => (match x.1 with | .integer n => .integer n | .float f => .float f, x.2)

/-- The elements of an array up to its closing bracket, at most `n` of them. A comma may follow the last. -/
def elements (element : Reader Value) : Nat → Reader (List Value)
  | 0, _ => none
  | n + 1, cs =>
    match skipGaps false cs with
    | ']' :: rest => some ([], rest)
    | cs => do
      let (v, rest) ← element cs
      match skipGaps false rest with
      | ',' :: more =>
        let (vs, more) ← elements element n more
        return (v :: vs, more)
      | ']' :: rest => return ([v], rest)
      | _ => none

def pair (value : Reader Value) (cs : List Char) : Option ((KeyPath × Value) × List Char) := do
  let (path, rest) ← keyPath cs
  match rest with
  | '=' :: rest =>
    let (v, rest) ← value (skipSpaces rest)
    return ((path, v), rest)
  | _ => none

/-- The pairs of an inline table up to its closing brace, at most `n` of them. -/
def pairs (value : Reader Value) : Nat → Reader (List (KeyPath × Value))
  | 0, _ => none
  | n + 1, cs => do
    let (p, rest) ← pair value cs
    match skipSpaces rest with
    | ',' :: more =>
      let (ps, more) ← pairs value n more
      return (p :: ps, more)
    | '\x7d' :: rest => return ([p], rest)
    | _ => none

def inlineTable (value : Reader Value) (cs : List Char) : Option (Value × List Char) :=
  match skipSpaces cs with
  | '\x7d' :: rest => some (.table [], rest)
  | cs => do
    let (ps, rest) ← pairs value cs.length cs
    return (.table (entriesToValues (← Entries.insertAll [] ps)), rest)

/-- A value with at most so many arrays and inline tables one in the other. -/
def valueUpTo : Nat → Reader Value
  | _, '"' :: rest => (string ('"' :: rest)).map fun x => (.string x.1, x.2)
  | _, '\'' :: rest => (string ('\'' :: rest)).map fun x => (.string x.1, x.2)
  | _, 't' :: rest => keyword "true" (.boolean true) ('t' :: rest)
  | _, 'f' :: rest => keyword "false" (.boolean false) ('f' :: rest)
  | nesting + 1, '[' :: rest =>
    (elements (valueUpTo nesting) (rest.length + 1) rest).map fun x => (.array x.1, x.2)
  | nesting + 1, '\x7b' :: rest => inlineTable (valueUpTo nesting) rest
  | _, cs => dateOrNumber cs

def value : Reader Value := valueUpTo maxNesting

end EclipseProject.Toml
