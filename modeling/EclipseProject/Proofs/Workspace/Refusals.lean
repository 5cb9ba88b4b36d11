import EclipseProject.Proofs.Disk.Adding
import EclipseProject.Proofs.Path.Parents
import EclipseProject.Proofs.Workspace.Journal

/-!
# What a refused call leaves behind

A file that cannot be written leaves nothing. A directory that cannot be made may leave directories, each where a path
above its own leads, and nothing else.
-/

namespace EclipseProject

theorem Disk.adds_above_of_refused {d e : Disk} {p : Path} {cause : SystemError}
    (h : d.ensureDirectory p = (.error cause, e)) : Adds (Path.Above · p) d e :=
  (adds_parents h (Or.inl (by simp))).mono fun _ hq => Path.above_of_mem_parents hq

namespace Workspace

variable {w w' : Workspace} {e : Staging.Entry} {s s' : Session} {f : FileError}

/-- Whatever is refused, the error tells what was tried and where, nothing is logged and nothing is staged. -/
theorem told_of_place_error (hw : w.dryRun = false) (h : (w.place e).on s = ⟨.error f, w', s'⟩) :
    f.operation = .placing e.content ∧ f.path = w.root.join e.destination ∧ w' = w ∧ s'.log = s.log := by
  rw [on_place w e s hw] at h
  dsimp only at h
  split at h
  · cases h
  · cases h
    exact ⟨rfl, rfl, rfl, rfl⟩

/-- **What a refused call leaves behind.** The error holds the operation and the joined path, and neither the workspace
nor the log has changed. A refused file leaves the disk as it was. A refused directory leaves all that was there, and
what is new is a directory where a path above the joined one leads. -/
theorem refusals_leave (w : Workspace) (hw : w.dryRun = false) (s : Session) (p : Path) :
    (∀ contents f w' s', (w.writeFile p contents).on s = ⟨.error f, w', s'⟩ →
      f.operation = .write ∧ f.path = w.root.join p ∧ w' = w ∧ s'.log = s.log ∧ s'.disk = s.disk) ∧
    (∀ f w' s', (w.createDirectory p).on s = ⟨.error f, w', s'⟩ →
      f.operation = .makeDirectory ∧ f.path = w.root.join p ∧ w' = w ∧ s'.log = s.log ∧
        (∀ l x, s.disk.entry? l = some x → s'.disk.entry? l = some x) ∧
        ∀ l x, s.disk.entry? l = none → s'.disk.entry? l = some x →
          x = .directory ∧ ∃ q, q.Above (w.root.join p) ∧ s'.disk.LeadsTo q l) := by
  refine ⟨fun contents f w' s' h => ?_, fun f w' s' h => ?_⟩
  · have hplace : (w.place ⟨p, some contents⟩).on s = ⟨.error f, w', s'⟩ := h
    obtain ⟨hoperation, hpath, hworkspace, hlog⟩ := told_of_place_error hw hplace
    obtain ⟨cause, hdisk⟩ := disk_of_place_error hw hplace
    exact ⟨hoperation, hpath, hworkspace, hlog, Disk.eq_of_place_file_error hdisk⟩
  · have hplace : (w.place ⟨p, none⟩).on s = ⟨.error f, w', s'⟩ := h
    obtain ⟨hoperation, hpath, hworkspace, hlog⟩ := told_of_place_error hw hplace
    obtain ⟨cause, hdisk⟩ := disk_of_place_error hw hplace
    have hadds : Disk.Adds (Path.Above · (w.root.join p)) s.disk s'.disk := Disk.adds_above_of_refused hdisk
    refine ⟨hoperation, hpath, hworkspace, hlog, fun l x hx => hadds.stays hx, fun l x hnone hx => ?_⟩
    obtain ⟨_, hdirectory, hq⟩ := hadds.new l (by simp [hnone, hx])
    exact ⟨Option.some.inj (hx.symm.trans hdirectory), hq⟩

/-- The directory above the missing one is made before the dot is refused. -/
theorem refusals_leave_parent :
    let w := ofRoot (.ofString "/") false
    let s := Session.ofDisk .empty
    let made := (w.createDirectory (.ofString "a/b/.")).on s
    let written := (w.writeFile (.ofString "a/b") "1").on s
    made.answer = .error ⟨.makeDirectory, .ofString "/a/b/.", .notFound⟩ ∧ made.workspace = w ∧
      made.session.disk.entry? [Utf8.encode "a"] = some .directory ∧
      (∃ q, q.Above (.ofString "/a/b/.") ∧ made.session.disk.LeadsTo q [Utf8.encode "a"]) ∧
      written.answer = .error ⟨.write, .ofString "/a/b", .notFound⟩ ∧ written.workspace = w ∧
      written.session.disk = s.disk := by
  intro w s made written
  have hmade : made.answer = .error ⟨.makeDirectory, .ofString "/a/b/.", .notFound⟩ := by
    simp only [made, w, s]
    decide +kernel
  have hleft : made.session.disk.entry? [Utf8.encode "a"] = some .directory := by
    simp only [made, w, s]
    decide +kernel
  have hwritten : written.answer = .error ⟨.write, .ofString "/a/b", .notFound⟩ := by
    simp only [written, w, s]
    decide +kernel
  have hnone : s.disk.entry? [Utf8.encode "a"] = none := by
    simp only [s]
    decide +kernel
  have hjoin : w.root.join (.ofString "a/b/.") = .ofString "/a/b/." := by
    simp only [w]
    decide +kernel
  obtain ⟨_, _, hkept, _, _, hnew⟩ :=
    (refusals_leave w rfl s (.ofString "a/b/.")).2 _ made.workspace made.session (Outcome.ext hmade rfl rfl)
  obtain ⟨_, _, hsameWorkspace, _, hsame⟩ :=
    (refusals_leave w rfl s (.ofString "a/b")).1 "1" _ written.workspace written.session (Outcome.ext hwritten rfl rfl)
  rw [hjoin] at hnew
  exact ⟨hmade, hkept, hleft, (hnew _ _ hnone hleft).2, hwritten, hsameWorkspace, hsame⟩

end Workspace

end EclipseProject
