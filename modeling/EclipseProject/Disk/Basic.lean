import EclipseProject.Path.Basic
import EclipseProject.SystemError
import Std.Data.ExtTreeMap

/-!
# The disk and where paths lead

A disk without links: each location, a list of names from the root down, holds a directory, a file or nothing.
A path is followed name by name from the root or the working directory, and each place on the way must be a
directory.
-/

namespace EclipseProject

abbrev Location := List Name

inductive Entry where
  | directory
  | file (contents : List UInt8) (executable : Bool)
  deriving DecidableEq, Repr

def Entry.isDirectory : Entry → Bool
  | .directory => true
  | .file .. => false

/-- The root itself is always a directory and not among the entries. -/
structure Disk where
  entries : Std.ExtTreeMap Location Entry
  workingDirectory : Location
  root_not_mem : [] ∉ entries

namespace Disk

def entry? (d : Disk) (l : Location) : Option Entry := if l = [] then some .directory else d.entries[l]?

theorem root_not_mem_insert {m : Std.ExtTreeMap Location Entry} (hm : [] ∉ m) {l : Location} (hl : l ≠ [])
    (e : Entry) : [] ∉ m.insert l e := by
  rw [Std.ExtTreeMap.mem_insert, Std.LawfulEqCmp.compare_eq_iff_eq]
  exact fun h => h.elim hl hm

/-- Nothing can be put in the place of the root. -/
def put (d : Disk) (l : Location) (e : Entry) : Disk :=
  if h : l = [] then d else ⟨d.entries.insert l e, d.workingDirectory, root_not_mem_insert d.root_not_mem h e⟩

/-- Nothing but the root, which is also the working directory. -/
def empty : Disk := ⟨∅, [], Std.ExtTreeMap.not_mem_empty⟩

/-! ## What the locations hold -/

theorem entry?_put (d : Disk) {l : Location} (hl : l ≠ []) (e : Entry) (k : Location) :
    entry? (d.put l e) k = if k = l then some e else d.entry? k := by
  by_cases hk : k = []
  · simp [Disk.entry?, hk, Ne.symm hl]
  · simp [Disk.entry?, put, hk, hl, Std.ExtTreeMap.getElem?_insert, Std.LawfulEqCmp.compare_eq_iff_eq, eq_comm (a := k)]

@[simp] theorem workingDirectory_put (d : Disk) (l : Location) (e : Entry) :
    (d.put l e).workingDirectory = d.workingDirectory := by
  unfold put
  split <;> rfl

theorem ext_entry? {d e : Disk} (hw : d.workingDirectory = e.workingDirectory)
    (h : ∀ l, d.entry? l = e.entry? l) : d = e := by
  have hm : d.entries = e.entries := by
    refine Std.ExtTreeMap.ext_getElem? fun l => ?_
    by_cases hl : l = []
    · rw [hl, Std.ExtTreeMap.getElem?_eq_none d.root_not_mem, Std.ExtTreeMap.getElem?_eq_none e.root_not_mem]
    · simpa [Disk.entry?, hl] using h l
  cases d
  cases e
  simp_all

/-! ## Following a path -/

def maxName : Nat := 255

/-- The longest path, with the NUL byte that ends it, that the system takes. -/
def maxPath : Nat := 4096

def requireDirectory (d : Disk) (l : Location) : Except SystemError Unit :=
  match d.entry? l with
  | none => .error .notFound
  | some .directory => .ok ()
  | some (.file ..) => .error .notDirectory

/-- The parent of the root is the root. -/
def step (d : Disk) (l : Location) (n : Name) : Except SystemError Location := do
  d.requireDirectory l
  if n = Path.dot then return l
  if n = Path.dotDot then return l.dropLast
  if n.length > maxName then throw .nameTooLong
  if (d.entry? (l ++ [n])).isNone then throw .notFound
  return l ++ [n]

def walk (d : Disk) (l : Location) (ns : List Name) : Except SystemError Location := ns.foldlM d.step l

def start (d : Disk) (p : Path) : Location := if p.isAbsolute then [] else d.workingDirectory

/-- Some paths are refused before the disk is looked at. -/
def accept (p : Path) : Except SystemError Unit :=
  if 0 ∈ p.bytes then .error .nulInPath
  else if p.bytes = [] then .error .notFound
  else if p.bytes.length ≥ maxPath then .error .nameTooLong
  else .ok ()

/-- Where an existing path leads. One that ends in a slash must lead to a directory. -/
def resolve (d : Disk) (p : Path) : Except SystemError Location := do
  accept p
  let l ← d.walk (d.start p) p.pieces
  if p.endsInSlash then d.requireDirectory l
  return l

/-- The directory in which the last piece of a path is to be found or made. -/
def resolveParent (d : Disk) (p : Path) : Except SystemError Location := do
  accept p
  let l ← d.walk (d.start p) p.pieces.dropLast
  d.requireDirectory l
  return l

/-- The last piece, if it is a name and not a dot or a double dot. -/
def lastName? (p : Path) : Option Name :=
  p.pieces.getLast?.filter fun n => n ≠ Path.dot ∧ n ≠ Path.dotDot

def find? (d : Disk) (p : Path) : Option Entry :=
  match d.resolve p with
  | .ok l => d.entry? l
  | .error _ => none

def exists? (d : Disk) (p : Path) : Bool := (d.find? p).isSome

def isDirectory (d : Disk) (p : Path) : Bool := d.find? p == some .directory

def isFile (d : Disk) (p : Path) : Bool := (d.find? p).any (!·.isDirectory)

end Disk

end EclipseProject
