import EclipseProject.Staging.Record
import EclipseProject.Style

/-!
# The tree of a staged record

Each entry adds the nodes that its path still lacks. A node keeps the kind it was made with. A tree is drawn with
one line for each node; the units before the name tell which of the nodes above are the last of their parents.
-/

namespace EclipseProject.Staging

inductive Kind where
  | directory
  | file
  deriving DecidableEq, Repr

def Entry.kind (e : Entry) : Kind := if e.isFile then .file else .directory

def Entry.segments (e : Entry) : List String := e.destination.names.map Utf8.decode

inductive Tree where
  | node (name : String) (kind : Kind) (children : List Tree)
  deriving Repr

namespace Tree

def name : Tree → String
  | .node n _ _ => n

/-- Changes the first tree of that name, or adds a changed new one at the end. -/
def changeNamed (name : String) (change : Tree → Tree) (new : Tree) : List Tree → List Tree
  | [] => [change new]
  | t :: ts => if t.name = name then change t :: ts else t :: changeNamed name change new ts

/-- Adds the nodes along the segments that are not there. Only the last can be a file. -/
def insert (kind : Kind) : List String → Tree → Tree
  | [], t => t
  | s :: rest, .node n k ts =>
    .node n k (changeNamed s (insert kind rest) (.node s (if rest = [] then kind else .directory) []) ts)

def ofRecord (r : Record) (root : Path) : Tree :=
  r.entries.foldl (fun t e => t.insert e.kind e.segments) (.node root.display .directory [])

/-! ## Drawing -/

structure Line where
  /-- For each node above, from the root down, whether it is the last child. -/
  above : List Bool
  isLast : Bool
  name : String
  kind : Kind
  deriving DecidableEq, Repr

mutual

def lines (above : List Bool) (isLast : Bool) : Tree → List Line
  | .node n k ts => ⟨above, isLast, n, k⟩ :: childLines (above ++ [isLast]) ts

def childLines (above : List Bool) : List Tree → List Line
  | [] => []
  | t :: ts => t.lines above ts.isEmpty ++ childLines above ts

end

def unit (isLast : Bool) : String := if isLast then "    " else "│   "

def connector (isLast : Bool) : String := if isLast then "└── " else "├── "

def Line.text (colored : Bool) (l : Line) : String :=
  String.join (l.above.map unit) ++ Style.yellow.paint colored (connector l.isLast) ++
    (match l.kind with | .file => Style.green | .directory => Style.blue).paint colored l.name ++ "\n"

/-- The root is drawn as a last child. -/
def draw (colored : Bool) (t : Tree) : String := String.join ((t.lines [] true).map (Line.text colored))

end Tree

end EclipseProject.Staging
