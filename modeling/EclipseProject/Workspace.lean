import EclipseProject.FileError
import EclipseProject.Session
import EclipseProject.Staging.Record

/-!
# Workspaces

Files are written below the root of a workspace, and what was written is staged. In a dry run the disk is left
alone and everything is staged. An operation changes its workspace in place, step by step up to the first failure, and
leaves it to the next operation in either case.
-/

namespace EclipseProject

structure Workspace where
  root : Path
  dryRun : Bool
  staged : Staging.Record
  deriving DecidableEq, Repr

namespace Workspace

def ofRoot (root : Path) (dryRun : Bool) : Workspace := ⟨root, dryRun, .empty⟩

/-! ## Changing a workspace in place -/

/-- A change of a workspace in a session. What was changed before a failure stays changed. -/
abbrev Change (α : Type) := ExceptT FileError (StateM (Workspace × Session)) α

namespace Change

variable {α β : Type}

def on (a : Change α) (w : Workspace) (s : Session) : Except FileError α × Workspace × Session := a.run.run (w, s)

instance : MonadLift (Action FileError) Change where
  monadLift a := .mk fun (w, s) =>
    let (answer, s') := a.on s
    (answer, w, s')

def stage (change : Staging.Record → Staging.Record) : Change Unit :=
  .mk fun (w, s) => (.ok (), { w with staged := change w.staged }, s)

@[simp] theorem on_lift (a : Action FileError α) (w : Workspace) (s : Session) :
    (liftM a : Change α).on w s = ((a.on s).1, w, (a.on s).2) := rfl

@[simp] theorem on_stage (change : Staging.Record → Staging.Record) (w : Workspace) (s : Session) :
    (stage change).on w s = (.ok (), { w with staged := change w.staged }, s) := rfl

@[simp] theorem on_bind (a : Change α) (f : α → Change β) (w : Workspace) (s : Session) :
    (a >>= f).on w s =
      match a.on w s with
      | (.ok x, w', s') => (f x).on w' s'
      | (.error e, w', s') => (.error e, w', s') := by
  cases h : a.on w s with
  | mk r left => cases r <;> simp_all [on, ExceptT.run_bind, StateT.run_bind] <;> rfl

end Change

/-- What an operation came to, and the workspace and the session that it left, whether it succeeded or not. -/
@[ext]
structure Outcome where
  answer : Except FileError Unit
  workspace : Workspace
  session : Session

structure Operation where
  on : Session → Outcome

namespace Operation

def of (w : Workspace) (a : Change Unit) : Operation where
  on s :=
    let (answer, w', s') := a.on w s
    ⟨answer, w', s'⟩

/-- The workspace is given up if the operation fails. -/
def orFail (x : Operation) : Action FileError Workspace :=
  Action.ofFun fun s =>
    match x.on s with
    | ⟨.ok _, w, s'⟩ => (.ok w, s')
    | ⟨.error e, _, s'⟩ => (.error e, s')

instance : Coe Operation (Action FileError Workspace) := ⟨orFail⟩

@[simp] theorem on_orFail (x : Operation) (s : Session) : x.orFail.on s =
    match x.on s with
    | ⟨.ok _, w, s'⟩ => (.ok w, s')
    | ⟨.error e, _, s'⟩ => (.error e, s') := rfl

end Operation

/-! ## Directories and files -/

def makeOnDisk (p : Path) : Action FileError Unit :=
  Action.ofFun fun s =>
    let s := s.attempting (.makeDirectory p)
    match s.disk.ensureDirectory p with
    | (.ok _, d) => (.ok (), { s with disk := d })
    | (.error cause, d) => (.error ⟨.makeDirectory, p, cause⟩, { s with disk := d })

def writeOnDisk (p : Path) (contents : String) : Action FileError Unit :=
  Action.ofFun fun s =>
    let s := s.attempting (.write p contents)
    match s.disk.writeFile p (Utf8.encode contents) with
    | .ok d => (.ok (), { s with disk := d })
    | .error cause => (.error ⟨.write, p, cause⟩, s)

/-- Tells creating from overwriting by what is there before. -/
def verbFor (d : Disk) (p : Path) : Log.Verb := if d.exists? p then .overwrite else .create

def makeAndTell (p : Path) : Action FileError Unit := do
  makeOnDisk p
  Action.note (.ensured p)

def writeAndTell (p : Path) (contents : String) : Action FileError Unit := do
  let verb := verbFor (← Action.look).disk p
  writeOnDisk p contents
  Action.note (.wrote verb p)

def createDirectory (w : Workspace) (p : Path) : Operation := .of w do
  unless w.dryRun do makeAndTell (w.root.join p)
  Change.stage (·.pushDirectory p)

def writeFile (w : Workspace) (p : Path) (contents : String) : Operation := .of w do
  unless w.dryRun do writeAndTell (w.root.join p) contents
  Change.stage (·.pushFile p contents)

/-! ## The two ways of working -/

theorem on_createDirectory_of_dryRun (w : Workspace) (p : Path) (s : Session) (h : w.dryRun = true) :
    (w.createDirectory p).on s = ⟨.ok (), { w with staged := w.staged.pushDirectory p }, s⟩ := by
  rw [createDirectory, if_pos h]
  rfl

theorem on_writeFile_of_dryRun (w : Workspace) (p : Path) (contents : String) (s : Session)
    (h : w.dryRun = true) :
    (w.writeFile p contents).on s = ⟨.ok (), { w with staged := w.staged.pushFile p contents }, s⟩ := by
  rw [writeFile, if_pos h]
  rfl

theorem on_createDirectory (w : Workspace) (p : Path) (s : Session) (h : w.dryRun = false) :
    (w.createDirectory p).on s =
      let tried := s.attempting (.makeDirectory (w.root.join p))
      match s.disk.ensureDirectory (w.root.join p) with
      | (.ok _, d) =>
        ⟨.ok (), { w with staged := w.staged.pushDirectory p },
          { tried with disk := d, log := s.log ++ [.ensured (w.root.join p)] }⟩
      | (.error cause, d) => ⟨.error ⟨.makeDirectory, w.root.join p, cause⟩, w, { tried with disk := d }⟩ := by
  cases hm : s.disk.ensureDirectory (w.root.join p) with
  | mk r d => cases r <;> simp [createDirectory, h, Operation.of, makeAndTell, makeOnDisk, Session.attempting, hm]

theorem on_writeFile (w : Workspace) (p : Path) (contents : String) (s : Session) (h : w.dryRun = false) :
    (w.writeFile p contents).on s =
      let tried := s.attempting (.write (w.root.join p) contents)
      match s.disk.writeFile (w.root.join p) (Utf8.encode contents) with
      | .ok d =>
        ⟨.ok (), { w with staged := w.staged.pushFile p contents },
          { tried with disk := d, log := s.log ++ [.wrote (verbFor s.disk (w.root.join p)) (w.root.join p)] }⟩
      | .error cause => ⟨.error ⟨.write, w.root.join p, cause⟩, w, tried⟩ := by
  cases hw : s.disk.writeFile (w.root.join p) (Utf8.encode contents) <;>
    simp [writeFile, h, Operation.of, writeAndTell, writeOnDisk, Session.attempting, hw]

end Workspace

end EclipseProject
