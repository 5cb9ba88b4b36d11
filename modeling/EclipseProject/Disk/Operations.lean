import EclipseProject.Disk.Basic

/-!
# Reading, writing and making directories

Reading and writing do nothing when they fail. Making a directory with its parents may leave some of the parents.
-/

namespace EclipseProject.Disk

def readFile (d : Disk) (p : Path) : Except SystemError (List UInt8) := do
  match d.entry? (← d.resolve p) with
  | some (.file contents _) => return contents
  | some .directory => throw .isDirectory
  | none => throw .notFound

/-- A file that is there keeps its permissions, a new one is not executable. -/
def writeFile (d : Disk) (p : Path) (contents : List UInt8) : Except SystemError Disk := do
  let parent ← d.resolveParent p
  let some n := lastName? p | throw .isDirectory
  if p.endsInSlash then throw .isDirectory
  if n.length > maxName then throw .nameTooLong
  match d.entry? (parent ++ [n]) with
  | some .directory => throw .isDirectory
  | some (.file _ executable) => return d.put (parent ++ [n]) (.file contents executable)
  | none => return d.put (parent ++ [n]) (.file contents false)

def makeDirectory (d : Disk) (p : Path) : Except SystemError Disk := do
  let parent ← d.resolveParent p
  let some n := lastName? p | throw .alreadyExists
  if n.length > maxName then throw .nameTooLong
  if (d.entry? (parent ++ [n])).isSome then throw .alreadyExists
  return d.put (parent ++ [n]) .directory

/-- Makes a directory; if there is a directory already, nothing is left to do. -/
def settleDirectory (d : Disk) (p : Path) : Except SystemError Unit × Disk :=
  match d.makeDirectory p with
  | .ok d' => (.ok (), d')
  | .error e => (if d.isDirectory p then .ok () else .error e, d)

/-- Makes the first path; if what is missing is its parent, makes the paths that follow it first. -/
def ensureLineage (d : Disk) : List Path → Except SystemError Unit × Disk
  | [] => (.ok (), d)
  | p :: parents =>
    if p.bytes = [] then (.ok (), d)
    else
      match d.settleDirectory p with
      | (.error e, d') =>
        if e = .notFound then
          match d'.ensureLineage parents with
          | (.ok (), d'') => d''.settleDirectory p
          | failed => failed
        else (.error e, d')
      | done => done

/-- Makes a directory and its missing parents. An existing directory is fine, and so is the empty path. -/
def ensureDirectory (d : Disk) (p : Path) : Except SystemError Unit × Disk := d.ensureLineage p.lineage

end EclipseProject.Disk
