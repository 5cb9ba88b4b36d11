import EclipseProject.Toml.Datetime
import EclipseProject.Toml.Key

/-!
# Tables and how they grow

Values, and tables under construction. A table knows how it came to be, which decides what may still be added to
it: its own header declares it, the header of a table inside it implies it, a dotted key spells it. Keys keep the
order in which they first appear, but an implied table that is declared later moves to the end.
-/

namespace EclipseProject.Toml

inductive Value where
  | string (s : String)
  | integer (n : Int)
  | float (x : Binary64)
  | boolean (b : Bool)
  | datetime (d : Datetime)
  | array (elements : List Value)
  | table (entries : List (String × Value))

/-! ## Comparing values -/

mutual

def Value.same : Value → Value → Bool
  | .string s, .string t => s = t
  | .integer m, .integer n => m = n
  | .float x, .float y => x = y
  | .boolean a, .boolean b => a = b
  | .datetime d, .datetime e => d = e
  | .array vs, .array ws => Value.sameAll vs ws
  | .table es, .table fs => Value.sameEntries es fs
  | _, _ => false

def Value.sameAll : List Value → List Value → Bool
  | [], [] => true
  | v :: vs, w :: ws => v.same w && Value.sameAll vs ws
  | _, _ => false

def Value.sameEntries : List (String × Value) → List (String × Value) → Bool
  | [], [] => true
  | (k, v) :: es, (l, w) :: fs => k = l && v.same w && Value.sameEntries es fs
  | _, _ => false

end

mutual

theorem Value.same_iff : (v w : Value) → (v.same w = true ↔ v = w)
  | .string s, w => by cases w <;> simp [Value.same]
  | .integer n, w => by cases w <;> simp [Value.same]
  | .float x, w => by cases w <;> simp [Value.same]
  | .boolean b, w => by cases w <;> simp [Value.same]
  | .datetime d, w => by cases w <;> simp [Value.same]
  | .array vs, w => by cases w <;> simp [Value.same, Value.sameAll_iff vs]
  | .table es, w => by cases w <;> simp [Value.same, Value.sameEntries_iff es]

theorem Value.sameAll_iff : (vs ws : List Value) → (Value.sameAll vs ws = true ↔ vs = ws)
  | [], ws => by cases ws <;> simp [Value.sameAll]
  | v :: vs, ws => by cases ws <;> simp [Value.sameAll, Value.same_iff v, Value.sameAll_iff vs]

theorem Value.sameEntries_iff : (es fs : List (String × Value)) → (Value.sameEntries es fs = true ↔ es = fs)
  | [], fs => by cases fs <;> simp [Value.sameEntries]
  | (k, v) :: es, fs => by
    cases fs <;> simp [Value.sameEntries, Value.same_iff v, Value.sameEntries_iff es, Prod.ext_iff]

end

instance : DecidableEq Value := fun v w => decidable_of_iff _ (Value.same_iff v w)

/-! ## Tables under construction -/

inductive Origin where
  | declared
  | implied
  | dotted
  deriving DecidableEq, Repr

inductive Node where
  /-- A value, also an array or an inline table, to which nothing can be added. -/
  | leaf (v : Value)
  | table (origin : Origin) (entries : List (String × Node))
  /-- The tables of an array, each declared by its own header. -/
  | tables (elements : List (List (String × Node)))

abbrev Entries := List (String × Node)

/-! ## Values of finished tables -/

mutual

def Node.toValue : Node → Value
  | .leaf v => v
  | .table _ es => .table (entriesToValues es)
  | .tables ts => .array (tablesToValues ts)

def entriesToValues : List (String × Node) → List (String × Value)
  | [] => []
  | (k, n) :: es => (k, n.toValue) :: entriesToValues es

def tablesToValues : List (List (String × Node)) → List Value
  | [] => []
  | es :: ts => .table (entriesToValues es) :: tablesToValues ts

end

/-! ## Adding entries -/

namespace Entries

def replace (key : String) (n : Node) (es : Entries) : Entries := es.map fun e => if e.1 = key then (key, n) else e

def changeLast (change : Entries → Option Entries) : List Entries → Option (List Entries)
  | [] => none
  | [es] => (change es).map ([·])
  | es :: more => (changeLast change more).map (es :: ·)

/-- Changes the table that a path leads to. Missing tables on the way are made; in an array of tables the way goes
through the last one. A dotted key does not enter a table that a header declares. -/
def descend (dotted : Bool) (change : Origin → Entries → Option Entries) :
    List String → Origin → Entries → Option Entries
  | [], origin, es => change origin es
  | key :: path, _, es =>
    match es.lookup key with
    | none =>
      let origin := if dotted then .dotted else .implied
      (descend dotted change path origin []).map fun inner => es ++ [(key, .table origin inner)]
    | some (.leaf _) => none
    | some (.table origin inner) =>
      if dotted ∧ origin = .declared then none
      else (descend dotted change path origin inner).map fun inner => replace key (.table origin inner) es
    | some (.tables ts) =>
      (changeLast (descend dotted change path .declared) ts).map fun ts => replace key (.tables ts) es

def insertNew (key : String) (n : Node) (es : Entries) : Option Entries :=
  if (es.lookup key).isSome then none else some (es ++ [(key, n)])

/-- Adds a key with its value. A path of several keys must end in a table that dotted keys have made. -/
def insert (es : Entries) (pair : KeyPath × Value) : Option Entries :=
  let dotted := !pair.1.parents.isEmpty
  descend dotted (fun origin es =>
    if (origin == .dotted) = dotted then insertNew pair.1.last (.leaf pair.2) es else none)
    pair.1.parents .declared es

def insertAll (es : Entries) (pairs : List (KeyPath × Value)) : Option Entries := pairs.foldlM insert es

/-- Declares a table and fills it. It must be new or only implied so far. -/
def declare (es : Entries) (path : KeyPath) (pairs : List (KeyPath × Value)) : Option Entries :=
  descend false (fun _ es =>
    match es.lookup path.last with
    | none => (insertAll [] pairs).map fun inner => es ++ [(path.last, .table .declared inner)]
    | some (.table .implied start) =>
      (insertAll start pairs).map fun inner =>
        es.filter (·.1 ≠ path.last) ++ [(path.last, .table .declared inner)]
    | some _ => none)
    path.parents .declared es

def declareElement (es : Entries) (path : KeyPath) (pairs : List (KeyPath × Value)) : Option Entries :=
  descend false (fun _ es =>
    match es.lookup path.last with
    | none => (insertAll [] pairs).map fun inner => es ++ [(path.last, .tables [inner])]
    | some (.tables ts) => (insertAll [] pairs).map fun inner => replace path.last (.tables (ts ++ [inner])) es
    | some _ => none)
    path.parents .declared es

end Entries

end EclipseProject.Toml
