import EclipseProject.Toml.Strings

/-!
# Keys

A key is bare or a string that stays on its line. Keys joined by dots lead into tables.
-/

namespace EclipseProject.Toml

/-- The keys of the tables on the way, and the key in the last of them. -/
structure KeyPath where
  parents : List String
  last : String
  deriving DecidableEq, Repr

def isBareKey (c : Char) : Bool := c.isAlphanum || c == '_' || c == '-'

def bareKey (cs : List Char) : Option (String × List Char) :=
  if cs.takeWhile isBareKey = [] then none else some (.ofList (cs.takeWhile isBareKey), cs.dropWhile isBareKey)

def simpleKey : Reader String
  | '"' :: rest => shortString ('"' :: rest)
  | '\'' :: rest => shortString ('\'' :: rest)
  | cs => bareKey cs

/-- At most `n` keys, with spaces around each of them. -/
def keyPathUpTo : Nat → Reader KeyPath
  | 0, _ => none
  | n + 1, cs => do
    let (key, rest) ← simpleKey (skipSpaces cs)
    match skipSpaces rest with
    | '.' :: more =>
      let (path, more) ← keyPathUpTo n more
      return (⟨key :: path.parents, path.last⟩, more)
    | rest => return (⟨[], key⟩, rest)

/-- How many keys a path, and how many arrays and inline tables a value, can have one in the other. -/
def maxNesting : Nat := 79

def keyPath : Reader KeyPath := keyPathUpTo maxNesting

end EclipseProject.Toml
