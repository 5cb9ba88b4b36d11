import EclipseProject.Proofs.Setup.Leftovers

/-!
# Running again

A run that comes after another, even after one that failed, comes to the same as without it. What the other left is
in places that this one fills itself, and it never stands in the way: where a file is to be there is no directory,
and where the directory is to be there is no file.
-/

namespace EclipseProject.Setup

variable {b : Bazel} {table : Bazel.Outcomes} {c : Config} {o : Options} {g g' : Progress} {s s' : Session}
  {sts : List Step} {st : Step} {r l : Location} {d e : Disk} {i : Item} {is : List Item} {content : Option String}

/-! ## What another run may have left -/

theorem content_eq_none_iff {a : Answers} : i.content c o a = none ↔ i = .settings := by
  cases i <;> simp [Item.content]

/-- The second disk is the first but for leftovers of these items. -/
structure Stale (r : Location) (is : List Item) (d e : Disk) : Prop where
  workingDirectory : e.workingDirectory = d.workingDirectory
  elsewhere : ∀ l, (∀ i ∈ is, l ≠ i.location r) → e.entry? l = d.entry? l
  there : ∀ i ∈ is, e.entry? (i.location r) = d.entry? (i.location r) ∨
    ∃ content : Option String, (content = none ↔ i = .settings) ∧ d.Admits (i.location r) content ∧
      e.entry? (i.location r) = some (d.settled (i.location r) content)

namespace Stale

theorem refl (r : Location) (is : List Item) (d : Disk) : Stale r is d d :=
  ⟨rfl, fun _ _ => rfl, fun _ _ => Or.inl rfl⟩

theorem eq_of_nil (h : Stale r [] d e) : e = d :=
  Disk.ext_entry? h.workingDirectory fun l => h.elsewhere l (by simp)

theorem of_placed {a : Answers} (h : Placed r (Item.content c o a) d is e) (hn : is.Nodup) : Stale r Item.all d e := by
  refine ⟨h.workingDirectory, fun l hl => h.elsewhere fun i _ => hl i (mem_all i), fun i _ => ?_⟩
  by_cases hi : i ∈ is
  · obtain ⟨hadmits, hentry⟩ := h.there hn hi
    exact Or.inr ⟨_, content_eq_none_iff, hadmits, hentry⟩
  · refine Or.inl (h.elsewhere fun j hj hij => ?_)
    exact hi (location_injective hij ▸ hj)

/-- Leftovers take no directory away. -/
theorem extending (h : Stale r is d e) : Disk.Extends d e := by
  have hcases (l : Location) : e.entry? l = d.entry? l ∨
      ∃ content, d.Admits l content ∧ e.entry? l = some (d.settled l content) := by
    by_cases hl : ∃ i ∈ is, l = i.location r
    · obtain ⟨i, hi, rfl⟩ := hl
      obtain hsame | ⟨content, _, hadmits, hentry⟩ := h.there i hi
      · exact Or.inl hsame
      · exact Or.inr ⟨content, hadmits, hentry⟩
    · exact Or.inl (h.elsewhere l fun i hi hil => hl ⟨i, hi, hil⟩)
  refine ⟨h.workingDirectory, fun l hl => ?_, fun l hl => ?_⟩
  · obtain hsame | ⟨content, hadmits, hentry⟩ := hcases l
    · rw [hsame, hl]
    · cases content with
      | none => exact hentry
      | some contents => exact absurd hl hadmits
  · obtain hsame | ⟨content, _, hentry⟩ := hcases l
    · rw [hsame]
      exact hl
    · rw [hentry]
      rfl

/-- An item is admitted over its leftover as it was before, and leaves the same. -/
theorem settle (h : Stale r (i :: is) d e) (hi : i ∉ is) (hc : content = none ↔ i = .settings)
    (hadmits : d.Admits (i.location r) content) :
    e.Admits (i.location r) content ∧
      Stale r is (d.settle (i.location r) content) (e.settle (i.location r) content) := by
  have hover : e.Admits (i.location r) content ∧
      e.settled (i.location r) content = d.settled (i.location r) content := by
    obtain hsame | ⟨content', hc', hadmits', hentry⟩ := h.there i (by simp)
    · obtain ⟨h₁, h₂⟩ := Disk.admits_congr hsame content
      exact ⟨h₁.mpr hadmits, h₂⟩
    · cases content with
      | none =>
        obtain rfl : content' = none := hc'.mpr (hc.mp rfl)
        exact ⟨Or.inr hentry, rfl⟩
      | some contents =>
        cases content' with
        | none => exact absurd (hc.mpr (hc'.mp rfl)) (by simp)
        | some contents' =>
          simp only [Disk.settled] at hentry
          exact ⟨by simp [Disk.Admits, hentry], by simp [Disk.settled, Disk.isExecutable, hentry]⟩
  refine ⟨hover.1, ?_, fun l hl => ?_, fun j hj => ?_⟩
  · simp [Disk.settle, h.workingDirectory]
  · by_cases hil : l = i.location r
    · rw [hil, entry?_settle, entry?_settle, hover.2]
    · rw [entry?_settle_of_ne hil, entry?_settle_of_ne hil]
      exact h.elsewhere l fun j hj => by
        obtain rfl | hj := List.mem_cons.mp hj
        · exact hil
        · exact hl j hj
  · have hne : j.location r ≠ i.location r := fun hji => hi (location_injective hji ▸ hj)
    have hsame := entry?_settle_of_ne (d := d) hne content
    rw [entry?_settle_of_ne hne, hsame]
    obtain hj | ⟨content', hc', hadmits', hentry⟩ := h.there j (by simp [hj])
    · exact Or.inl hj
    · obtain ⟨h₁, h₂⟩ := Disk.admits_congr hsame content'
      exact Or.inr ⟨content', hc', h₁.mpr hadmits', by rw [h₂, hentry]⟩

end Stale

/-! ## Following the same steps -/

section
variable (hb : b.runner.AnswersFrom table)
include hb

theorem follow_calls (s' : Session) (hst : ∀ st ∈ sts, st.item? = none)
    (hok : (follow b c o sts g s).failure = none) :
    (follow b c o sts g s').failure = none ∧
      (follow b c o sts g s').progress = (follow b c o sts g s).progress := by
  induction sts generalizing g s s' with
  | nil => exact ⟨rfl, rfl⟩
  | cons st sts ih =>
    cases h : (perform b c o g st).on s with
    | mk x s₁ =>
    cases h' : (perform b c o g st).on s' with
    | mk x' s₁' =>
    obtain rfl := result_perform_call hb (hst st (by simp)) h h'
    cases x with
    | error e =>
      rw [follow_cons_error h] at hok
      cases hok
    | ok g' =>
      rw [follow_cons_ok h] at hok
      rw [follow_cons_ok h, follow_cons_ok h']
      exact ih _ (fun y hy => hst y (by simp [hy])) hok

/-- Leftovers of what is still to be placed change neither what a run comes to nor what it leaves. -/
theorem follow_stale (ho : o.dryRun = false) (hn : (sts.filterMap Step.item?).Nodup)
    (hw : ∀ st ∈ sts, st ≠ .ask .workspace) (hr : s.disk.LeadsTo g.answers.root r)
    (hstale : Stale r (sts.filterMap Step.item?) s.disk s'.disk) (hok : (follow b c o sts g s).failure = none) :
    (follow b c o sts g s').failure = none ∧
      (follow b c o sts g s').progress = (follow b c o sts g s).progress ∧
      (follow b c o sts g s').session.disk = (follow b c o sts g s).session.disk := by
  -- each item placed settles its own leftover, so after the last one none is left
  induction sts generalizing g s s' with
  | nil => exact ⟨rfl, rfl, hstale.eq_of_nil⟩
  | cons st sts ih =>
    have hwrest : ∀ y ∈ sts, y ≠ .ask .workspace := fun y hy => hw y (by simp [hy])
    cases h : (perform b c o g st).on s with
    | mk x s₁ =>
    cases x with
    | error e =>
      rw [follow_cons_error h] at hok
      cases hok
    | ok g' =>
      have hroot' := root_perform (hw st (by simp)) h
      rw [follow_cons_ok h] at hok
      have hcall (hi : st.item? = none) : ∃ s₁', (perform b c o g st).on s' = (.ok g', s₁') ∧
          s₁.disk = s.disk ∧ s₁'.disk = s'.disk := by
        cases h' : (perform b c o g st).on s' with
        | mk x' s₁' =>
          obtain rfl := result_perform_call hb hi h h'
          exact ⟨s₁', rfl, disk_perform hb.toLeavesDisk (Or.inr hi) h, disk_perform hb.toLeavesDisk (Or.inr hi) h'⟩
      cases hi : st.item? with
      | none =>
        obtain ⟨s₁', h', hd, hd'⟩ := hcall hi
        rw [List.filterMap_cons_none hi] at hn hstale
        rw [follow_cons_ok h, follow_cons_ok h']
        exact ih hn hwrest (by rw [hroot', hd]; exact hr) (by rw [hd, hd']; exact hstale) hok
      | some i =>
        obtain rfl : st = .place i := by
          cases st <;> simp_all [Step.item?]
        rw [List.filterMap_cons_some hi] at hn hstale
        obtain ⟨hnotin, hn⟩ := List.nodup_cons.mp hn
        obtain ⟨_, hx, _⟩ | ⟨hx, ha, hadmits, hd⟩ := item_perform ho hr h
        · cases hx
        · cases hx
          obtain ⟨hadmits', hstale'⟩ := hstale.settle hnotin content_eq_none_iff hadmits
          obtain ⟨s₁', h', hd'⟩ := perform_of_aims (b := b) ho (Disk.aims_of_extends hstale.extending ha) hadmits'
          have hr' : s₁.disk.LeadsTo g.answers.root r := by
            rw [hd]
            exact Disk.leadsTo_settle hr (location_ne_nil r i) hadmits
          rw [follow_cons_ok h, follow_cons_ok h']
          exact ih hn hwrest hr' (by rw [hd, hd']; exact hstale') hok

theorem trail_stale (s' : Session) (ho : o.dryRun = false) (hok : (trail b c o s).failure = none)
    (hr : s.disk.LeadsTo (trail b c o s).progress.answers.root r) (hstale : Stale r Item.all s.disk s'.disk) :
    (trail b c o s').failure = none ∧ (trail b c o s').progress = (trail b c o s).progress ∧
      (trail b c o s').session.disk = (trail b c o s).session.disk := by
  rw [trail_really ho, ← calls_append] at hok hr
  rw [trail_really ho, trail_really ho, ← calls_append]
  have hd := (disk_calls (c := c) (o := o) (s := s) hb.toLeavesDisk).2
  have hd' := (disk_calls (c := c) (o := o) (s := s') hb.toLeavesDisk).2
  have hcalls : (follow b c o (calls c) .start s).failure = none := failure_of_append hok
  obtain ⟨hcalls', hprogress⟩ := follow_calls hb s' item_calls hcalls
  rw [follow_append_of_done hcalls] at hok hr
  rw [follow_append_of_done hcalls, follow_append_of_done hcalls', hprogress]
  have hw : ∀ st ∈ steps.tail, st ≠ .ask .workspace := by simp [steps]
  generalize (follow b c o (calls c) .start s).progress = g at hok hr
  have hroot : (follow b c o steps.tail g (follow b c o (calls c) .start s).reached).progress.answers.root =
      g.answers.root := Answers.root_eq (answers_follow steps.tail hw ..)
  have hr : s.disk.LeadsTo g.answers.root r := hroot ▸ hr
  exact follow_stale hb ho (by decide) hw (by rw [hd]; exact hr) (by rw [hd, hd']; exact hstale) hok

end

/-! ## The whole run -/

/-- A run that succeeds knows a root that leads to a directory. -/
theorem leadsTo_of_success (hb : b.runner.LeavesDisk) (ho : o.dryRun = false) (hok : (trail b c o s).failure = none) :
    ∃ r, s.disk.LeadsTo (trail b c o s).progress.answers.root r := by
  have htried := (tried_trail b c o s).2 hok
  have hdone : (trail b c o s).done = script c o := by simpa [Trail.tried, hok] using htried
  obtain ⟨_, hitems⟩ | ⟨v, r, hv, hr, _⟩ := placed_trail (c := c) hb ho s
  · rw [hdone, items_script] at hitems
    cases hitems
  · rw [Answers.root_of_some hv]
    exact ⟨r, hr⟩

theorem stale_of_trail (hb : b.runner.LeavesDisk) (ho : o.dryRun = false)
    (hr : ∀ v r', (trail b c o s).progress.answers .workspace = some v → s.disk.LeadsTo (.ofString v) r' → r' = r) :
    Stale r Item.all s.disk (trail b c o s).session.disk := by
  obtain ⟨hd, _⟩ | ⟨v, r', hv, hr', hplaced⟩ := placed_trail (c := c) hb ho s
  · rw [hd]
    exact .refl r _ _
  · obtain rfl := hr v r' hv hr'
    obtain ⟨n, hn⟩ := items_done b c o s
    exact .of_placed hplaced (hn ▸ nodup_all.sublist (List.take_sublist ..))

/-- **Running again converges.** Let a run succeed. After any other run, however that ended, unless it was told of a
root elsewhere, it succeeds as well and comes to the same, on the disk and in what it stages. -/
theorem rerun_converges {a b : Bazel} {ca c : Config} {oa o : Options} {d : Disk} {x : Except Error Workspace}
    {w : Workspace} {s₁ s₂ : Session} (ha : a.runner.LeavesDisk) (hoa : oa.dryRun = false)
    (hother : (run a ca oa).on (.ofDisk d) = (x, s₁)) (hb : b.runner.AnswersFrom table) (ho : o.dryRun = false)
    (hrun : (run b c o).on (.ofDisk d) = (.ok w, s₂))
    (hroot : ∀ v r, answersIn s₁.log .workspace = some v → d.LeadsTo (.ofString v) r → d.LeadsTo w.root r) :
    ∃ s₃, (run b c o).on (.ofDisk s₁.disk) = (.ok w, s₃) ∧ s₃.disk = s₂.disk := by
  rw [on_run] at hother hrun
  cases hother
  obtain ⟨hresult, hs₂⟩ := Prod.mk.inj hrun
  obtain ⟨hok, rfl⟩ := failure_of_ok hresult
  obtain ⟨r, hr⟩ := leadsTo_of_success hb.toLeavesDisk ho hok
  have hstale : Stale r Item.all d (trail a ca oa (.ofDisk d)).session.disk := by
    refine stale_of_trail (s := .ofDisk d) ha hoa fun v r' hv hr' => ?_
    rw [answers_trail] at hv
    exact (hroot v r' hv hr').unique hr
  obtain ⟨hok', hprogress, hdisk⟩ :=
    trail_stale hb (.ofDisk (trail a ca oa (.ofDisk d)).session.disk) ho hok hr hstale
  refine ⟨_, (on_run ..).trans (Prod.ext ?_ rfl), hdisk.trans (congrArg _ hs₂)⟩
  rw [← hprogress]
  exact result_of_none hok'

/-- The other run is for another project and fails without the binaries; the second one overwrites its files. -/
theorem rerun_converges_after_failure :
    let known := [("workspace", Except.ok (Utf8.encode "/\n")), ("bazel-genfiles", .ok (Utf8.encode "/g\n"))]
    let t : Bazel.AnswerTable := ⟨known, [], []⟩
    let u : Bazel.AnswerTable := ⟨("bazel-bin", .ok (Utf8.encode "/b\n")) :: known, [], []⟩
    let a : Bazel := ⟨"bazel", t.runner⟩
    let b : Bazel := ⟨"bazel", u.runner⟩
    let first := trail a .default (really (some "other")) (.ofDisk .empty)
    let alone := trail b .default (really none) (.ofDisk .empty)
    first.failure.isSome = true ∧ alone.result (really none) = .ok (alone.progress.workspace (really none)) ∧
      ∃ s₃, (run b .default (really none)).on (.ofDisk first.session.disk) =
        (.ok (alone.progress.workspace (really none)), s₃) ∧ s₃.disk = alone.session.disk := by
  intro known t u a b first alone
  have ha : a.runner.LeavesDisk := t.answersFrom_runner.toLeavesDisk
  have hb : b.runner.AnswersFrom u.outcomes := u.answersFrom_runner
  have hfirst : first.failure.isSome = true := by
    simp only [first, a, t, known]
    decide +kernel
  have halone : alone.failure.isNone = true := by
    simp only [alone, b, u, known]
    decide +kernel
  have halone : alone.result (really none) = .ok (alone.progress.workspace (really none)) :=
    result_of_none (Option.isNone_iff_eq_none.mp halone)
  have hrun : (run b .default (really none)).on (.ofDisk .empty) =
      (.ok (alone.progress.workspace (really none)), alone.session) :=
    (on_run ..).trans (congrArg (·, alone.session) halone)
  have hv' : answersIn first.session.log .workspace = some "/" := by
    simp only [first, a, t, known]
    decide +kernel
  have hw : (alone.progress.workspace (really none)).root = .ofString "/" := by
    simp only [alone, b, u, known]
    decide +kernel
  have hroot : ∀ v r, answersIn first.session.log .workspace = some v → Disk.empty.LeadsTo (.ofString v) r →
      Disk.empty.LeadsTo (alone.progress.workspace (really none)).root r := by
    intro v r hv hr
    cases hv.symm.trans hv'
    rw [hw]
    exact hr
  exact ⟨hfirst, halone, rerun_converges ha rfl (on_run ..) hb rfl hrun hroot⟩

end EclipseProject.Setup
