import EclipseProject.Proofs.Workspace.Placing

/-!
# The record as a journal

A workspace is used call after call, whether the calls succeed or not. What it stages are the calls that succeeded,
in their order, and doing these again on the first disk leads to the same disk. Only a directory that could not be
made may have left some of its parents, which no record tells of.
-/

namespace EclipseProject

theorem Disk.eq_of_place_file_error {d e : Disk} {p : Path} {contents : String} {cause : SystemError}
    (h : d.place p (some contents) = (.error cause, e)) : e = d := by
  unfold place at h
  dsimp only at h
  split at h
  · cases h
  · cases h
    rfl

namespace Workspace

/-- What came of a number of calls: each entry with the answer, and the workspace and the session they left. -/
structure Usage where
  answers : List (Staging.Entry × Except FileError Unit)
  workspace : Workspace
  session : Session

namespace Usage

def after (a : Staging.Entry × Except FileError Unit) (u : Usage) : Usage := { u with answers := a :: u.answers }

def succeeded (u : Usage) : List Staging.Entry := (u.answers.filter (·.2.isOk)).map Prod.fst

theorem succeeded_after_ok (e : Staging.Entry) (u : Usage) : (u.after (e, .ok ())).succeeded = e :: u.succeeded := rfl

theorem succeeded_after_error (e : Staging.Entry) (f : FileError) (u : Usage) :
    (u.after (e, .error f)).succeeded = u.succeeded := rfl

theorem mem_succeeded {u : Usage} {e : Staging.Entry} : e ∈ u.succeeded ↔ (e, .ok ()) ∈ u.answers := by
  rw [succeeded, List.mem_map]
  constructor
  · rintro ⟨⟨e, r⟩, ha, rfl⟩
    obtain ⟨hm, hok⟩ := List.mem_filter.mp ha
    cases r with
    | ok u => exact hm
    | error f => cases hok
  · exact fun h => ⟨_, List.mem_filter.mpr ⟨h, rfl⟩, rfl⟩

end Usage

/-- Places one entry after the other, each in the workspace and the session that the one before it left. -/
def placeEach (w : Workspace) (s : Session) : List Staging.Entry → Usage
  | [] => ⟨[], w, s⟩
  | e :: es =>
    let left := (w.place e).on s
    (left.workspace.placeEach left.session es).after (e, left.answer)

variable {w w' : Workspace} {e : Staging.Entry} {es : List Staging.Entry} {s s' : Session} {f : FileError}

theorem placeEach_cons_ok (h : (w.place e).on s = ⟨.ok (), w', s'⟩) :
    w.placeEach s (e :: es) = (w'.placeEach s' es).after (e, .ok ()) := by
  rw [placeEach, h]

theorem placeEach_cons_error (h : (w.place e).on s = ⟨.error f, w, s'⟩) :
    w.placeEach s (e :: es) = (w.placeEach s' es).after (e, .error f) := by
  rw [placeEach, h]

/-- A call either succeeds or leaves the workspace to the next one as it was. -/
@[elab_as_elim]
theorem placing_induction {motive : Workspace → Session → List Staging.Entry → Prop}
    (nil : ∀ w s, motive w s [])
    (ok : ∀ w s e es w' s', (w.place e).on s = ⟨.ok (), w', s'⟩ → motive w' s' es → motive w s (e :: es))
    (error : ∀ w s e es f s', (w.place e).on s = ⟨.error f, w, s'⟩ → motive w s' es → motive w s (e :: es))
    (w : Workspace) (s : Session) (es : List Staging.Entry) : motive w s es := by
  induction es generalizing w s with
  | nil => exact nil w s
  | cons e es ih =>
    cases h : (w.place e).on s with
    | mk answer w' s' =>
      cases answer with
      | ok _ => exact ok w s e es w' s' h (ih w' s')
      | error f =>
        obtain rfl := eq_of_place_error h
        exact error w' s e es f s' h (ih w' s')

/-! ## One call and the disk -/

section
variable (hw : w.dryRun = false)
include hw

theorem disk_of_place_ok (h : (w.place e).on s = ⟨.ok (), w', s'⟩) :
    s.disk.place (w.root.join e.destination) e.content = (.ok (), s'.disk) := by
  rw [on_place w e s hw] at h
  dsimp only at h
  split at h
  · next d hd =>
    cases h
    exact hd
  · cases h

theorem disk_of_place_error (h : (w.place e).on s = ⟨.error f, w', s'⟩) :
    ∃ cause, s.disk.place (w.root.join e.destination) e.content = (.error cause, s'.disk) := by
  rw [on_place w e s hw] at h
  dsimp only at h
  split at h
  · cases h
  · next cause d hd =>
    cases h
    exact ⟨cause, hd⟩

/-- On the same disk a call comes to the same. -/
theorem place_again {t : Session} (h : (w.place e).on s = ⟨.ok (), w', s'⟩) (ht : t.disk = s.disk) :
    ∃ t', (w.place e).on t = ⟨.ok (), w', t'⟩ ∧ t'.disk = s'.disk := by
  have hdisk := disk_of_place_ok hw h
  rw [← ht] at hdisk
  rw [eq_of_place_ok h, on_place w e t hw]
  simp only [hdisk]
  exact ⟨_, rfl, rfl⟩

end

/-! ## All calls -/

theorem entries_placeEach (es : List Staging.Entry) (w : Workspace) (s : Session) :
    (w.placeEach s es).answers.map Prod.fst = es := by
  induction es generalizing w s with
  | nil => rfl
  | cons e es ih => rw [placeEach, Usage.after, List.map_cons, ih]

/-- Of a workspace only the record changes. -/
theorem workspace_placeEach (es : List Staging.Entry) (w : Workspace) (s : Session) :
    (w.placeEach s es).workspace = { w with staged := ⟨w.staged.entries ++ (w.placeEach s es).succeeded⟩ } := by
  induction w, s, es using placing_induction with
  | nil w s => simp [placeEach, Usage.succeeded]
  | ok w s e es w' s' h ih =>
    rw [placeEach_cons_ok h, Usage.after]
    refine ih.trans ?_
    rw [eq_of_place_ok h]
    simp [Usage.succeeded, Staging.Record.push, Except.isOk, Except.toBool]
  | error w s e es f s' h ih =>
    rw [placeEach_cons_error h, Usage.after]
    refine ih.trans ?_
    simp [Usage.succeeded, Except.isOk, Except.toBool]

theorem workspace_placeEach_ofRoot (root : Path) (dryRun : Bool) (s : Session) (es : List Staging.Entry) :
    ((ofRoot root dryRun).placeEach s es).workspace =
      ⟨root, dryRun, ⟨((ofRoot root dryRun).placeEach s es).succeeded⟩⟩ := by
  rw [workspace_placeEach]
  rfl

theorem placeEach_of_dryRun (hw : w.dryRun = true) (es : List Staging.Entry) : w.placeEach s es =
    ⟨es.map (·, .ok ()), { w with staged := ⟨w.staged.entries ++ es⟩ }, s⟩ := by
  induction es generalizing w with
  | nil => simp [placeEach]
  | cons e es ih =>
    rw [placeEach_cons_ok (on_place_of_dryRun w e s hw)]
    have hrest := ih (w := { w with staged := w.staged.push e }) hw
    rw [hrest]
    simp [Usage.after, Staging.Record.push]

/-- What succeeded succeeds again without the files that could not be written, and leaves the same disk. -/
theorem placeEach_succeeded (hw : w.dryRun = false)
    (hmade : ∀ a ∈ (w.placeEach s es).answers, a.1.content = none → a.2.isOk = true) {t : Session}
    (ht : t.disk = s.disk) :
    (∀ a ∈ (w.placeEach t (w.placeEach s es).succeeded).answers, a.2.isOk = true) ∧
      (w.placeEach t (w.placeEach s es).succeeded).session.disk = (w.placeEach s es).session.disk := by
  induction w, s, es using placing_induction generalizing t with
  | nil w s => exact ⟨by simp [placeEach, Usage.succeeded], ht⟩
  | ok w s e es w' s' h ih =>
    have hw' : w'.dryRun = false := by rw [eq_of_place_ok h, hw]
    obtain ⟨t', h', ht'⟩ := place_again hw h ht
    rw [placeEach_cons_ok h] at hmade ⊢
    have hcons : ((w'.placeEach s' es).after (e, .ok ())).succeeded = e :: (w'.placeEach s' es).succeeded := rfl
    obtain ⟨hall, hend⟩ := ih hw' (fun a ha => hmade a (List.mem_cons_of_mem _ ha)) ht'
    rw [hcons, placeEach_cons_ok h']
    exact ⟨List.forall_mem_cons.mpr ⟨rfl, hall⟩, hend⟩
  | error w s e es f s' h ih =>
    -- it is a file, so the disk is the same as before
    obtain ⟨cause, hdisk⟩ := disk_of_place_error hw h
    rw [placeEach_cons_error h] at hmade ⊢
    have hfile : e.content ≠ none := fun hc => by cases hmade (e, .error f) (List.mem_cons_self ..) hc
    obtain ⟨contents, hc⟩ := Option.ne_none_iff_exists'.mp hfile
    rw [hc] at hdisk
    have hsame := Disk.eq_of_place_file_error hdisk
    exact ih hw (fun a ha => hmade a (List.mem_cons_of_mem _ ha)) (ht.trans hsame.symm)

/-- **The record is a journal.** It holds the calls that succeeded, and all calls of a dry run. If every directory could
be made, the recorded calls succeed again on the first disk and lead to the same one. -/
theorem record_is_journal (root : Path) (s : Session) (es : List Staging.Entry) :
    let real := (ofRoot root false).placeEach s es
    let dry := (ofRoot root true).placeEach s es
    (real.answers.map Prod.fst = es ∧ real.workspace.staged.entries = real.succeeded) ∧
    (dry.answers = es.map (·, .ok ()) ∧ dry.session = s ∧ dry.workspace.staged.entries = es) ∧
    ((∀ a ∈ real.answers, a.1.content = none → a.2.isOk = true) → ∀ t : Session, t.disk = s.disk →
      let again := (ofRoot root false).placeEach t real.workspace.staged.entries
      (∀ a ∈ again.answers, a.2.isOk = true) ∧ again.session.disk = real.session.disk) := by
  intro real dry
  have hstaged : real.workspace.staged.entries = real.succeeded :=
    congrArg (·.staged.entries) (workspace_placeEach es (ofRoot root false) s)
  have hdry : dry = _ := placeEach_of_dryRun (w := ofRoot root true) (s := s) rfl es
  refine ⟨⟨entries_placeEach .., hstaged⟩, ?_, fun hmade t ht => ?_⟩
  · rw [hdry]
    exact ⟨rfl, rfl, rfl⟩
  · rw [hstaged]
    exact placeEach_succeeded rfl hmade ht

/-- A file is written too early, again, under another spelling, and once where the directory is. -/
theorem record_is_journal_despite_refusals :
    let file := Staging.Entry.mk (.ofString "a/b") (some "1")
    let again := Staging.Entry.mk (.ofString "x/../a//b") (some "2")
    let directory := Staging.Entry.mk (.ofString "a/") none
    let other := Staging.Entry.mk (.ofString "/x") none
    let refused := Staging.Entry.mk (.ofString "a") (some "3")
    let calls := [file, directory, file, refused, other, again]
    let used := (ofRoot (.ofString "/") false).placeEach (.ofDisk .empty) calls
    let replayed := (ofRoot (.ofString "/") false).placeEach (.ofDisk .empty) [directory, file, other, again]
    (∀ a ∈ used.answers, a.1.content = none → a.2.isOk = true) ∧
      (∀ a ∈ replayed.answers, a.2.isOk = true) ∧ replayed.session.disk = used.session.disk := by
  intro file again directory other refused calls used replayed
  have hmade : ∀ a ∈ used.answers, a.1.content = none → a.2.isOk = true := by
    simp only [used, calls, file, again, directory, other, refused]
    decide +kernel
  have hstaged : used.workspace.staged.entries = [directory, file, other, again] := by
    simp only [used, calls, file, again, directory, other, refused]
    decide +kernel
  have hjournal := (record_is_journal (.ofString "/") (.ofDisk .empty) calls).2.2 hmade (.ofDisk .empty) rfl
  have hreplayed : replayed =
      (ofRoot (.ofString "/") false).placeEach (.ofDisk .empty) used.workspace.staged.entries := by rw [hstaged]
  rw [hreplayed]
  with_reducible exact ⟨hmade, hjournal⟩

end Workspace

end EclipseProject
