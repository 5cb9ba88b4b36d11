import EclipseProject.Text.Utf8

/-!
# Paths

A path is a string of bytes, never normalised. Its segments are what stands between the slashes; its components
are what those segments mean. Two spellings of one list of components are the same path.
-/

namespace EclipseProject

abbrev Name := List UInt8

structure Path where
  bytes : List UInt8
  deriving DecidableEq, Repr

inductive Component where
  | root
  | current
  | parent
  | name (n : Name)
  deriving DecidableEq, Repr

def Component.name? : Component → Option Name
  | .name n => some n
  | _ => none

namespace Path

def slash : UInt8 := 0x2F

def dot : Name := [0x2E]

def dotDot : Name := [0x2E, 0x2E]

def ofString (s : String) : Path := ⟨Utf8.encode s⟩

def display (p : Path) : String := Utf8.decode p.bytes

def isAbsolute (p : Path) : Bool := p.bytes.head? == some slash

def endsInSlash (p : Path) : Bool := p.bytes.getLast? == some slash

/-- What stands between slashes, one segment more than there are slashes. -/
def split : List UInt8 → List Name
  | [] => [[]]
  | b :: rest =>
    if b = slash then [] :: split rest
    else
      match split rest with
      | [] => [[b]]
      | n :: more => (b :: n) :: more

def segments (p : Path) : List Name := split p.bytes

def pieces (p : Path) : List Name := p.segments.filter (· ≠ [])

/-- A relative path is placed below `base`, an absolute one replaces it. -/
def join (base p : Path) : Path :=
  if p.isAbsolute then p
  else if base.bytes = [] ∨ base.endsInSlash then ⟨base.bytes ++ p.bytes⟩
  else ⟨base.bytes ++ slash :: p.bytes⟩

/-! ## Components -/

def component? (n : Name) : Option Component :=
  if n = dot then none else if n = dotDot then some .parent else some (.name n)

/-- Repeated and trailing slashes and a dot count for nothing, but for the dot that starts a relative path. -/
def components (p : Path) : List Component :=
  if p.isAbsolute then .root :: p.pieces.filterMap component?
  else (if p.pieces.head? = some dot then [.current] else []) ++ p.pieces.filterMap component?

def same (p q : Path) : Bool := p.components == q.components

def names (p : Path) : List Name := p.components.filterMap Component.name?

/-! ## Parents -/

def isIdle (n : Name) : Bool := n == [] || n == dot

def ofSegments (ns : List Name) : Path := ⟨[slash].intercalate ns⟩

/-- The path without its last component and the idle segments around it. -/
def parent? (p : Path) : Option Path :=
  match p.segments with
  | [] => none
  | first :: rest =>
    match rest.reverse.dropWhile isIdle with
    | [] => if first = [] then none else some ⟨[]⟩
    | _ :: above =>
      let kept := (above.dropWhile isIdle).reverse
      if first = [] ∧ kept = [] then some ⟨[slash]⟩ else some (ofSegments (first :: kept))

/-- The path and its parents, at most `n` of them, the nearest first. -/
def lineageUpTo : Nat → Path → List Path
  | 0, _ => []
  | n + 1, p => p :: (match p.parent? with | none => [] | some q => lineageUpTo n q)

/-- A parent is shorter, so the path's length bounds their number. -/
def lineage (p : Path) : List Path := lineageUpTo (p.bytes.length + 1) p

end Path

end EclipseProject
