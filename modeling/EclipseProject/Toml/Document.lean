import EclipseProject.Toml.Value

/-!
# Documents

A document is read line by line into headers and pairs. The pairs before the first header belong to the document
itself, all others to the table of the last header before them.
-/

namespace EclipseProject.Toml

inductive Item where
  | pair (path : KeyPath) (v : Value)
  | table (path : KeyPath)
  | element (path : KeyPath)

def header : Reader Item
  | '[' :: cs => do
    let (path, rest) ← keyPath cs
    match rest with
    | ']' :: ']' :: rest => return (.element path, rest)
    | _ => none
  | cs => do
    let (path, rest) ← keyPath cs
    match rest with
    | ']' :: rest => return (.table path, rest)
    | _ => none

def item : Reader Item
  | '[' :: rest => header rest
  | cs => (pair value cs).map fun x => (.pair x.1.1 x.1.2, x.2)

def itemsUpTo : Nat → List Char → Option (List Item)
  | 0, _ => none
  | n + 1, cs =>
    match skipGaps false cs with
    | [] => some []
    | cs => do
      let (x, rest) ← item cs
      return x :: (← itemsUpTo n (← lineEnd? rest))

/-- A byte order mark may stand at the front. -/
def items (cs : List Char) : Option (List Item) :=
  match cs with
  | '\uFEFF' :: rest => itemsUpTo (rest.length + 1) rest
  | cs => itemsUpTo (cs.length + 1) cs

/-! ## From items to one table -/

/-- The pairs up to the next header, and what follows them. -/
def splitPairs : List Item → List (KeyPath × Value) × List Item
  | .pair path v :: rest => ((path, v) :: (splitPairs rest).1, (splitPairs rest).2)
  | rest => ([], rest)

/-- Adds the sections at the front of a list of items. Pairs at the very front belong to no section and have been
added already. -/
def addSections (es : Entries) : List Item → Option Entries
  | [] => some es
  | .pair .. :: rest => addSections es rest
  | .table path :: rest => (es.declare path (splitPairs rest).1).bind (addSections · rest)
  | .element path :: rest => (es.declareElement path (splitPairs rest).1).bind (addSections · rest)

def ofItems (xs : List Item) : Option Entries := (Entries.insertAll [] (splitPairs xs).1).bind (addSections · xs)

def parse (text : String) : Option (List (String × Value)) :=
  ((items text.toList).bind ofItems).map entriesToValues

end EclipseProject.Toml
