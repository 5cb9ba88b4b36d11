import EclipseProject.Proofs.Disk.Writing
import EclipseProject.Workspace

/-!
# Placing an entry in a workspace

Writing a file and creating a directory are one operation, given by the entry that it stages: a file is placed with
its content, a directory without.
-/

namespace EclipseProject

/-- The disk with the entry placed at the path, as far as it can be. -/
def Disk.place (d : Disk) (p : Path) : Option String → Except SystemError Unit × Disk
  | some contents =>
    match d.writeFile p (Utf8.encode contents) with
    | .ok d' => (.ok (), d')
    | .error cause => (.error cause, d)
  | none => d.ensureDirectory p

theorem Disk.place_file_ok_iff {d e : Disk} {p : Path} {contents : String} :
    d.place p (some contents) = (.ok (), e) ↔ d.writeFile p (Utf8.encode contents) = .ok e := by
  rw [place]
  cases d.writeFile p (Utf8.encode contents) <;> simp

def Attempt.place (p : Path) : Option String → Attempt
  | some contents => .write p contents
  | none => .makeDirectory p

def FileOperation.placing : Option String → FileOperation
  | some _ => .write
  | none => .makeDirectory

namespace Workspace

def placed (d : Disk) (p : Path) : Option String → Log.Record
  | some _ => .wrote (verbFor d p) p
  | none => .ensured p

def place (w : Workspace) (e : Staging.Entry) : Operation :=
  match e.content with
  | some contents => w.writeFile e.destination contents
  | none => w.createDirectory e.destination

variable (w : Workspace) (e : Staging.Entry) (s : Session)

theorem on_place_of_dryRun (h : w.dryRun = true) :
    (w.place e).on s = ⟨.ok (), { w with staged := w.staged.push e }, s⟩ := by
  obtain ⟨p, content⟩ := e
  cases content with
  | none => exact on_createDirectory_of_dryRun w p s h
  | some contents => exact on_writeFile_of_dryRun w p contents s h

theorem on_place (h : w.dryRun = false) : (w.place e).on s =
    let p := w.root.join e.destination
    let tried := s.attempting (.place p e.content)
    match s.disk.place p e.content with
    | (.ok _, d) =>
      ⟨.ok (), { w with staged := w.staged.push e },
        { tried with disk := d, log := s.log ++ [placed s.disk p e.content] }⟩
    | (.error cause, d) => ⟨.error ⟨.placing e.content, p, cause⟩, w, { tried with disk := d }⟩ := by
  obtain ⟨p, content⟩ := e
  cases content with
  | none => exact on_createDirectory w p s h
  | some contents =>
    refine (on_writeFile w p contents s h).trans ?_
    cases hw : s.disk.writeFile (w.root.join p) (Utf8.encode contents) <;>
      simp [Disk.place, Attempt.place, FileOperation.placing, placed, Session.attempting, hw,
        Staging.Record.pushFile]

/-- An entry that is placed is staged, and nothing else of the workspace changes. A refused one changes nothing. -/
theorem workspace_place : ((w.place e).on s).workspace =
    if ((w.place e).on s).answer.isOk then { w with staged := w.staged.push e } else w := by
  by_cases hw : w.dryRun = true
  · rw [on_place_of_dryRun w e s hw]
    rfl
  · have hplace := on_place w e s (Bool.eq_false_iff.mpr hw)
    cases hd : s.disk.place (w.root.join e.destination) e.content with
    | mk r d =>
      simp only [hd] at hplace
      cases r <;> simp [hplace, Except.isOk, Except.toBool]

variable {w e s} {w' : Workspace} {s' : Session}

theorem eq_of_place_ok (h : (w.place e).on s = ⟨.ok (), w', s'⟩) : w' = { w with staged := w.staged.push e } := by
  have hworkspace := workspace_place w e s
  rwa [h] at hworkspace

theorem eq_of_place_error {f : FileError} (h : (w.place e).on s = ⟨.error f, w', s'⟩) : w' = w := by
  have hworkspace := workspace_place w e s
  rwa [h] at hworkspace

end Workspace

end EclipseProject
