import EclipseProject.Bazel.Invocation
import EclipseProject.Disk.Operations
import EclipseProject.Log

/-!
# Sessions

A session is all that a run can change: the disk, the log, the calls of bazel and what was shown on standard
output. It also keeps what was attempted, in order, whether it succeeded or not. An action may fail, and what it
changed before stays changed.
-/

namespace EclipseProject

structure Call where
  invocation : Bazel.Invocation
  started : Bool
  deriving DecidableEq, Repr

/-- What a run tries to have done by bazel or on the disk. -/
inductive Attempt where
  | call (i : Bazel.Invocation)
  | write (file : Path) (contents : String)
  | makeDirectory (directory : Path)
  deriving DecidableEq, Repr

structure Session where
  disk : Disk
  log : List Log.Record
  calls : List Call
  shown : List UInt8
  attempts : List Attempt

namespace Session

def ofDisk (d : Disk) : Session := ⟨d, [], [], [], []⟩

def attempting (s : Session) (a : Attempt) : Session := { s with attempts := s.attempts ++ [a] }

end Session

abbrev Action (ε α : Type) := ExceptT ε (StateM Session) α

namespace Action

variable {ε ε' α β : Type}

def on (a : Action ε α) (s : Session) : Except ε α × Session := a.run.run s

def ofFun (f : Session → Except ε α × Session) : Action ε α := .mk f

def look : Action ε Session := ofFun fun s => (.ok s, s)

def note (r : Log.Record) : Action ε Unit := ofFun fun s => (.ok (), { s with log := s.log ++ [r] })

def emit (bytes : List UInt8) : Action ε Unit := ofFun fun s => (.ok (), { s with shown := s.shown ++ bytes })

def result (r : Except ε α) : Action ε α := ofFun fun s => (r, s)

def wrap (f : ε → ε') (a : Action ε α) : Action ε' α := ofFun fun s => ((a.on s).1.mapError f, (a.on s).2)

/-! ## What actions do to a session -/

@[simp] theorem mapError_ok (f : ε → ε') (x : α) : (Except.ok x : Except ε α).mapError f = .ok x := rfl

@[simp] theorem mapError_error (f : ε → ε') (e : ε) : (Except.error e : Except ε α).mapError f = .error (f e) := rfl

@[simp] theorem on_ofFun (f : Session → Except ε α × Session) (s : Session) : (ofFun f).on s = f s := rfl

@[simp] theorem on_pure (x : α) (s : Session) : (pure x : Action ε α).on s = (.ok x, s) := rfl

@[simp] theorem on_throw (e : ε) (s : Session) : (throw e : Action ε α).on s = (.error e, s) := rfl

@[simp] theorem on_look (s : Session) : (look : Action ε Session).on s = (.ok s, s) := rfl

@[simp] theorem on_note (r : Log.Record) (s : Session) :
    (note r : Action ε Unit).on s = (.ok (), { s with log := s.log ++ [r] }) := rfl

@[simp] theorem on_emit (bytes : List UInt8) (s : Session) :
    (emit bytes : Action ε Unit).on s = (.ok (), { s with shown := s.shown ++ bytes }) := rfl

@[simp] theorem on_result (r : Except ε α) (s : Session) : (result r).on s = (r, s) := rfl

@[simp] theorem on_wrap (f : ε → ε') (a : Action ε α) (s : Session) :
    (wrap f a).on s = ((a.on s).1.mapError f, (a.on s).2) := rfl

@[simp] theorem on_bind (a : Action ε α) (f : α → Action ε β) (s : Session) :
    (a >>= f).on s =
      match a.on s with
      | (.ok x, s') => (f x).on s'
      | (.error e, s') => (.error e, s') := by
  cases h : a.on s with
  | mk r s' => cases r <;> simp_all [on, ExceptT.run_bind, StateT.run_bind] <;> rfl

@[simp] theorem on_map (f : α → β) (a : Action ε α) (s : Session) :
    (f <$> a).on s = ((a.on s).1.map f, (a.on s).2) := by
  rw [map_eq_pure_bind, on_bind]
  cases h : a.on s with
  | mk r s' => cases r <;> rfl

end Action

end EclipseProject
