import EclipseProject.Path.Basic

/-!
# The staged record

What a run wrote, or would write in a dry run, in order: files with their contents and directories. Entries are
found by what their path means, not by how it is spelt.
-/

namespace EclipseProject.Staging

structure Entry where
  destination : Path
  content : Option String
  deriving DecidableEq, Repr

def Entry.isFile (e : Entry) : Bool := e.content.isSome

def Entry.same (e f : Entry) : Bool := e.destination.same f.destination && e.content == f.content

structure Record where
  entries : List Entry
  deriving DecidableEq, Repr

namespace Record

def empty : Record := ⟨[]⟩

def push (r : Record) (e : Entry) : Record := ⟨r.entries ++ [e]⟩

def pushFile (r : Record) (p : Path) (content : String) : Record := r.push ⟨p, some content⟩

def pushDirectory (r : Record) (p : Path) : Record := r.push ⟨p, none⟩

def get? (r : Record) (p : Path) : Option Entry := r.entries.find? (·.destination.same p)

def files (r : Record) : List Entry := r.entries.filter Entry.isFile

def sameEntries : List Entry → List Entry → Bool
  | [], [] => true
  | e :: es, f :: fs => e.same f && sameEntries es fs
  | _, _ => false

def same (r s : Record) : Bool := sameEntries r.entries s.entries

end Record

end EclipseProject.Staging
