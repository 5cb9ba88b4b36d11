import EclipseProject.Proofs.Setup.Calls

/-!
# What the attempts of a run come to

Bazel leaves the disk alone, so what a run attempts tells all that it does there: the attempts, made again one after the
other on the first disk, lead to the disk that the run left. This holds wherever the run ended.
-/

namespace EclipseProject

/-- The disk after the attempt, whether it succeeds or not. -/
def Disk.after (d : Disk) : Attempt → Disk
  | .call _ => d
  | .write p contents => (d.place p (some contents)).2
  | .makeDirectory p => (d.place p none).2

theorem Disk.after_place (d : Disk) (p : Path) (content : Option String) :
    d.after (.place p content) = (d.place p content).2 := by
  cases content <;> rfl

/-- What was attempted between the sessions accounts for the disk of the second. -/
def Session.Accounts (s t : Session) : Prop :=
  ∃ new, t.attempts = s.attempts ++ new ∧ t.disk = new.foldl Disk.after s.disk

namespace Session.Accounts

variable {s t u : Session}

theorem refl (s : Session) : s.Accounts s := ⟨[], by simp, rfl⟩

theorem trans (h : s.Accounts t) (h' : t.Accounts u) : s.Accounts u := by
  obtain ⟨new, hattempts, hdisk⟩ := h
  obtain ⟨new', hattempts', hdisk'⟩ := h'
  refine ⟨new ++ new', ?_, ?_⟩
  · rw [hattempts', hattempts, List.append_assoc]
  · rw [hdisk', hdisk, List.foldl_append]

end Session.Accounts

namespace Setup

variable {b : Bazel} {c : Config} {o : Options} {g : Progress} {s : Session} {sts : List Step}

theorem disk_attempts_perform (hb : b.runner.LeavesDisk) (st : Step) : ((perform b c o g st).on s).2.disk =
    (st.attempts b c o g.answers).foldl Disk.after s.disk := by
  cases st with
  | build x =>
    have hx : (Step.build x).item? = none := rfl
    exact disk_perform hb (Or.inr hx) (Prod.eta _).symm
  | ask q =>
    have hq : (Step.ask q).item? = none := rfl
    exact disk_perform hb (Or.inr hq) (Prod.eta _).symm
  | place i =>
    cases ho : o.dryRun with
    | true =>
      rw [on_perform_place_of_dryRun ho]
      simp [Step.attempts, ho]
    | false =>
      rw [on_perform_place ho, Step.attempts, if_neg (by simp [ho]), List.foldl_cons, List.foldl_nil, Disk.after_place]
      dsimp only
      cases s.disk.place (g.answers.root.join i.path) (i.content c o g.answers) with
      | mk r d => cases r <;> rfl

theorem accounts_perform (hb : b.runner.LeavesDisk) (st : Step) : s.Accounts ((perform b c o g st).on s).2 :=
  ⟨st.attempts b c o g.answers, attempts_perform st, disk_attempts_perform hb st⟩

theorem accounts_follow (hb : b.runner.LeavesDisk) : s.Accounts (follow b c o sts g s).session := by
  induction sts generalizing g s with
  | nil => exact .refl s
  | cons st sts ih =>
    have hst := accounts_perform (c := c) (o := o) (g := g) (s := s) hb st
    cases h : (perform b c o g st).on s with
    | mk r s' =>
      rw [h] at hst
      cases r with
      | error e =>
        rw [follow_cons_error h]
        exact hst
      | ok g' =>
        rw [follow_cons_ok h]
        exact hst.trans ih

/-- **The attempts of a run account for the disk.** -/
theorem accounts_run (hb : b.runner.LeavesDisk) (c : Config) (o : Options) (s : Session) :
    s.Accounts ((run b c o).on s).2 := by
  have hopening : s.Accounts (opening o s) := by
    unfold opening
    split
    · exact ⟨[], by simp, rfl⟩
    · exact .refl s
  rw [on_run]
  exact hopening.trans (accounts_follow hb)

/-- On a machine, whatever its programs are and do, the disk that is left can be read off the attempts. -/
theorem disk_run_of_machine (m : Machine) (c : Config) (o : Options) (d : Disk) :
    let left := ((run ⟨c.bazel, m.runner⟩ c o).on (.ofDisk d)).2
    left.disk = left.attempts.foldl Disk.after d := by
  intro left
  obtain ⟨new, hattempts, hdisk⟩ := accounts_run (b := ⟨c.bazel, m.runner⟩) (Bazel.leavesDisk_runner m) c o (.ofDisk d)
  have hnew : left.attempts = new := hattempts
  rw [hnew]
  exact hdisk

end Setup

end EclipseProject
