import EclipseProject.Proofs.Workspace.Refusals
import Mathlib.Data.List.Infix

/-!
# What the log tells of a run

Each call that succeeds is told of, and no other. What a file is said to be, created or overwritten, is decided by the disk
right before its call. On the disk in the end each of these paths still leads where its file was written, so what the log
tells of one location can be read off there, however the location was spelt.
-/

namespace EclipseProject

namespace Log

variable {d e : Disk} {l : Location} {p : Path} {verb : Verb} {verbs : List Verb} {records : List Record} {P : Path → Prop}

/-! ## What is told of one location -/

/-- If anything is told, then first whether the location was there on the disk, and after that only overwriting. -/
def TellsFrom (d : Disk) (l : Location) (verbs : List Verb) : Prop :=
  verbs = [] ∨ ∃ n, verbs = (if (d.entry? l).isSome then .overwrite else .create) :: List.replicate n .overwrite

namespace TellsFrom

theorem of_eq (h : TellsFrom e l verbs) (he : e.entry? l = d.entry? l) : TellsFrom d l verbs := by
  unfold TellsFrom at *
  rwa [he] at h

theorem cons (h : TellsFrom e l verbs) (he : (e.entry? l).isSome) :
    TellsFrom d l ((if (d.entry? l).isSome then .overwrite else .create) :: verbs) := by
  obtain rfl | ⟨n, rfl⟩ := h
  · exact Or.inr ⟨0, rfl⟩
  · rw [if_pos he]
    exact Or.inr ⟨n + 1, rfl⟩

theorem of_adds (h : TellsFrom e l verbs) (hadds : Disk.Adds P d e) (hfile : e.entry? l = some .directory → verbs = []) :
    TellsFrom d l verbs := by
  by_cases he : e.entry? l = d.entry? l
  · exact h.of_eq he
  · obtain ⟨_, hdirectory, _⟩ := hadds.new l he
    exact Or.inl (hfile hdirectory)

end TellsFrom

end Log

namespace Workspace

variable {w w' : Workspace} {s s' : Session} {e : Staging.Entry} {es : List Staging.Entry} {f : FileError}
  {l : Location} {p : Path}

/-! ## The calls that are told of -/

/-- The calls that succeeded, each with the disk that it was made on. -/
def made (w : Workspace) (s : Session) (es : List Staging.Entry) : List (Disk × Staging.Entry) :=
  let disks := es.inits.map fun before => (w.placeEach s before).session.disk
  (disks.zip (w.placeEach s es).answers).filterMap fun (d, e, answer) => if answer.isOk then some (d, e) else none

end Workspace

end EclipseProject
