import EclipseProject.Proofs.Setup.Calls
import EclipseProject.Proofs.Workspace.Below

/-!
# What a run leaves on the disk

Only the six items below the root are touched, in their order and each as a whole. What was placed before a failure
stays; whatever else the disk holds is as it was.
-/

namespace EclipseProject.Setup

/-! ## Where the items lie -/

def Item.location (r : Location) (i : Item) : Location := r ++ i.path.pieces

theorem inner_path (i : Item) : i.path.Inner := by
  cases i <;> exact ⟨rfl, rfl, by decide, by decide⟩

theorem mem_all (i : Item) : i ∈ Item.all := by
  cases i <;> simp [Item.all]

theorem location_injective {r : Location} {i j : Item} (h : i.location r = j.location r) : i = j := by
  have hpieces : ∀ i ∈ Item.all, ∀ j ∈ Item.all, i.path.pieces = j.path.pieces → i = j := by decide +kernel
  exact hpieces i (mem_all i) j (mem_all j) (List.append_cancel_left h)

theorem location_ne_nil (r : Location) (i : Item) : i.location r ≠ [] := fun h =>
  (inner_path i).some (List.append_eq_nil_iff.mp h).2

theorem single_of_directory {c : Config} {o : Options} {a : Answers} {i : Item} (h : i.content c o a = none) :
    i.path.pieces.dropLast = [] := by
  cases i with
  | settings => rfl
  | _ => cases h

/-! ## Items placed one after the other -/

section
variable {r : Location} {content : Item → Option String} {d e : Disk} {is : List Item} {i : Item} {l : Location}

/-- The items are placed on the first disk in their order, each admitted where it lies, and leave the second. -/
inductive Placed (r : Location) (content : Item → Option String) : Disk → List Item → Disk → Prop
  | nil {d : Disk} : Placed r content d [] d
  | cons {d e : Disk} {i : Item} {is : List Item} (hi : d.Admits (i.location r) (content i))
      (his : Placed r content (d.settle (i.location r) (content i)) is e) : Placed r content d (i :: is) e

theorem entry?_settle_of_ne (h : l ≠ i.location r) (content : Option String) :
    Disk.entry? (d.settle (i.location r) content) l = d.entry? l := by
  rw [Disk.settle, Disk.entry?_put d (location_ne_nil r i), if_neg h]

theorem entry?_settle (d : Disk) (i : Item) (content : Option String) :
    Disk.entry? (d.settle (i.location r) content) (i.location r) = some (d.settled (i.location r) content) := by
  rw [Disk.settle, Disk.entry?_put d (location_ne_nil r i), if_pos rfl]

namespace Placed

theorem eq_of_nil (h : Placed r content d [] e) : e = d := by
  cases h
  rfl

theorem workingDirectory (h : Placed r content d is e) : e.workingDirectory = d.workingDirectory := by
  induction h with
  | nil => rfl
  | cons hi his ih =>
    rw [ih]
    exact Disk.workingDirectory_put ..

theorem elsewhere (h : Placed r content d is e) (hl : ∀ i ∈ is, l ≠ i.location r) : e.entry? l = d.entry? l := by
  induction h with
  | nil => rfl
  | cons hi his ih =>
    rw [ih fun j hj => hl j (by simp [hj])]
    exact entry?_settle_of_ne (hl _ (by simp)) _

theorem there (h : Placed r content d is e) (hn : is.Nodup) (hi : i ∈ is) :
    d.Admits (i.location r) (content i) ∧
      e.entry? (i.location r) = some (d.settled (i.location r) (content i)) := by
  induction h with
  | nil => cases hi
  | @cons d e j is hj his ih =>
    obtain ⟨hnotin, hn⟩ := List.nodup_cons.mp hn
    by_cases hij : i = j
    · subst hij
      refine ⟨hj, ?_⟩
      have helse : ∀ k ∈ is, i.location r ≠ k.location r := by
        intro k hk hik
        exact hnotin (location_injective hik ▸ hk)
      rw [his.elsewhere helse, entry?_settle]
    · have hmem : i ∈ is := by simpa [hij] using hi
      have hne : i.location r ≠ j.location r := fun h => hij (location_injective h)
      have hsame := entry?_settle_of_ne (d := d) hne (content j)
      obtain ⟨hadmits, hsettled⟩ := Disk.admits_congr hsame (content i)
      obtain ⟨h₁, h₂⟩ := ih hn hmem
      exact ⟨hadmits.mp h₁, by rw [h₂, hsettled]⟩

end Placed

end

/-! ## What follows below a root -/

section
variable {b : Bazel} {c : Config} {o : Options} {g g' : Progress} {s s' : Session} {sts : List Step} {st : Step}
  {r : Location} {x : Except Error Progress}

theorem perform_of_aims {i : Item} (ho : o.dryRun = false)
    (ha : s.disk.Aims (g.answers.root.join i.path) (i.location r))
    (hadmits : s.disk.Admits (i.location r) (i.content c o g.answers)) :
    ∃ s', (perform b c o g (.place i)).on s = (.ok (g.stage (i.entry c o g.answers)), s') ∧
      s'.disk = s.disk.settle (i.location r) (i.content c o g.answers) := by
  have hs := Disk.endsInSlash_join (inner_path i) g.answers.root
  obtain ⟨_, hplace⟩ | ⟨hno, _⟩ := Disk.place_of_aims ha hs (i.content c o g.answers)
  · rw [on_perform_place ho]
    simp only [hplace]
    exact ⟨_, rfl, rfl⟩
  · exact absurd hadmits hno

theorem item_perform {i : Item} (ho : o.dryRun = false) (hr : s.disk.LeadsTo g.answers.root r)
    (h : (perform b c o g (.place i)).on s = (x, s')) :
    (∃ e, x = .error e ∧ s'.disk = s.disk) ∨
      (x = .ok (g.stage (i.entry c o g.answers)) ∧ s.disk.Aims (g.answers.root.join i.path) (i.location r) ∧
        s.disk.Admits (i.location r) (i.content c o g.answers) ∧
        s'.disk = s.disk.settle (i.location r) (i.content c o g.answers)) := by
  obtain ⟨ha, hadmits, _⟩ | ⟨cause, hplace⟩ :=
    Disk.place_below (inner_path i) hr (single_of_directory (c := c) (o := o) (a := g.answers))
  · obtain ⟨s₁, h₁, hd⟩ := perform_of_aims (b := b) ho ha hadmits
    cases h.symm.trans h₁
    exact Or.inr ⟨rfl, ha, hadmits, hd⟩
  · rw [on_perform_place ho] at h
    simp only [hplace] at h
    cases h
    exact Or.inl ⟨_, rfl, rfl⟩

theorem item_perform_of_rootless {i : Item} {contents : String} (ho : o.dryRun = false)
    (hroot : g.answers.root.bytes ≠ []) (hr : ∀ r, ¬ s.disk.LeadsTo g.answers.root r)
    (hi : i.content c o g.answers = some contents) (h : (perform b c o g (.place i)).on s = (x, s')) :
    ∃ e, x = .error e ∧ s'.disk = s.disk := by
  have hplace : ∃ cause, s.disk.place (g.answers.root.join i.path) (some contents) = (.error cause, s.disk) :=
    Disk.place_file_of_rootless (inner_path i) hroot hr
  obtain ⟨cause, hplace⟩ := hplace
  rw [on_perform_place ho] at h
  simp only [hi, hplace] at h
  cases h
  exact ⟨_, rfl, rfl⟩

theorem root_perform (hw : st ≠ .ask .workspace) (h : (perform b c o g st).on s = (.ok g', s')) :
    g'.answers.root = g.answers.root :=
  Answers.root_eq ((progress_of_perform h).1 .workspace hw)

variable (hb : b.runner.LeavesDisk) (ho : o.dryRun = false)
include hb ho

theorem disk_of_error {e : Error} (hr : s.disk.LeadsTo g.answers.root r)
    (h : (perform b c o g st).on s = (.error e, s')) : s'.disk = s.disk := by
  cases st with
  | place i =>
    obtain ⟨_, _, hd⟩ | ⟨hx, _⟩ := item_perform ho hr h
    · exact hd
    · cases hx
  | build st => exact disk_perform hb (Or.inr rfl) h
  | ask q => exact disk_perform hb (Or.inr rfl) h

/-- Once the root is known and leads to a directory, a run places items below it and does nothing else. -/
theorem placed_follow (hs : Ordered sts) (hw : ∀ st ∈ sts, st ≠ .ask .workspace)
    (hr : s.disk.LeadsTo g.answers.root r) :
    Placed r (Item.content c o (follow b c o sts g s).progress.answers) s.disk
      ((follow b c o sts g s).done.filterMap Step.item?) (follow b c o sts g s).session.disk := by
  -- the root keeps leading to the same directory, since no item takes a directory away
  induction sts generalizing g s with
  | nil => exact .nil
  | cons st sts ih =>
    have hsts := (List.pairwise_cons.mp hs).2
    have hwrest : ∀ y ∈ sts, y ≠ .ask .workspace := fun y hy => hw y (by simp [hy])
    cases h : (perform b c o g st).on s with
    | mk x s' =>
    cases x with
    | error e =>
      have hd := disk_of_error hb ho hr h
      rw [follow_cons_error h]
      simp only [Trail.session, Option.map_some, Option.getD_some, hd]
      exact .nil
    | ok g' =>
      have hroot' := root_perform (hw st (by simp)) h
      have hneeds := answers_of_needs hs h
      rw [follow_cons_ok h]
      have hcall (hi : st.item? = none) : Placed r (Item.content c o (follow b c o sts g' s').progress.answers) s.disk
          ((st :: (follow b c o sts g' s').done).filterMap Step.item?) (follow b c o sts g' s').session.disk := by
        have hd := disk_perform hb (Or.inr hi) h
        have hplaced := ih (g := g') (s := s') hsts hwrest (by rw [hroot', hd]; exact hr)
        rw [hd] at hplaced
        rw [List.filterMap_cons_none hi]
        exact hplaced
      cases st with
      | build st => exact hcall rfl
      | ask q => exact hcall rfl
      | place i =>
        obtain ⟨_, hx, _⟩ | ⟨hx, _, hadmits, hd⟩ := item_perform ho hr h
        · cases hx
        · cases hx
          have hcontent := content_congr (c := c) (o := o) hneeds
          have hr' : s'.disk.LeadsTo g.answers.root r := by
            rw [hd]
            exact Disk.leadsTo_settle hr (location_ne_nil r i) hadmits
          have hplaced := ih (g := g.stage (i.entry c o g.answers)) (s := s') hsts hwrest hr'
          rw [← hcontent] at hadmits hd
          rw [hd] at hplaced
          exact .cons hadmits hplaced

/-- Below a root that leads to no directory, the first file is refused before anything is placed. -/
theorem disk_rootless (calls more : List Step) {i : Item} (hi : ∀ a, ∃ contents, i.content c o a = some contents)
    (hcalls : ∀ st ∈ calls, st.item? = none ∧ st ≠ .ask .workspace) (hroot : g.answers.root.bytes ≠ [])
    (hr : ∀ r, ¬ s.disk.LeadsTo g.answers.root r) :
    (follow b c o (calls ++ .place i :: more) g s).session.disk = s.disk ∧
      (follow b c o (calls ++ .place i :: more) g s).done.filterMap Step.item? = [] := by
  induction calls generalizing g s with
  | nil =>
    obtain ⟨contents, hcontent⟩ := hi g.answers
    cases h : (perform b c o g (.place i)).on s with
    | mk x s' =>
      obtain ⟨e, rfl, hd⟩ := item_perform_of_rootless ho hroot hr hcontent h
      rw [List.nil_append, follow_cons_error h]
      exact ⟨hd, rfl⟩
  | cons st calls ih =>
    obtain ⟨hitem, hw⟩ := hcalls st (by simp)
    cases h : (perform b c o g st).on s with
    | mk x s' =>
    have hd := disk_perform hb (Or.inr hitem) h
    cases x with
    | error e =>
      rw [List.cons_append, follow_cons_error h]
      exact ⟨hd, rfl⟩
    | ok g' =>
      have hroot' := root_perform hw h
      obtain ⟨h₁, h₂⟩ := ih (g := g') (s := s') (fun y hy => hcalls y (by simp [hy])) (hroot' ▸ hroot)
        (by rw [hroot', hd]; exact hr)
      rw [List.cons_append, follow_cons_ok h]
      exact ⟨h₁.trans hd, (List.filterMap_cons_none hitem).trans h₂⟩

/-! ## The whole run -/

theorem placed_steps {v : String} (hroot : (Path.ofString v).bytes ≠ []) :
    let t := follow b c o steps.tail (Progress.start.learn .workspace v) s
    (t.session.disk = s.disk ∧ t.done.filterMap Step.item? = []) ∨
      ∃ r, s.disk.LeadsTo (.ofString v) r ∧
        Placed r (Item.content c o t.progress.answers) s.disk (t.done.filterMap Step.item?) t.session.disk := by
  intro t
  have hanswer : (Progress.start.learn .workspace v).answers.root = .ofString v := rfl
  by_cases hr : ∃ r, s.disk.LeadsTo (.ofString v) r
  · obtain ⟨r, hr⟩ := hr
    have hs : Ordered steps.tail := (List.pairwise_cons.mp (ordered_script c (dryly none))).2
    exact Or.inr ⟨r, hr, placed_follow hb ho hs (by simp [steps]) (hanswer ▸ hr)⟩
  · have hno : ∀ r, ¬ s.disk.LeadsTo (.ofString v) r := fun r h => hr ⟨r, h⟩
    have hcalls : ∀ st ∈ [Step.ask .genfiles], st.item? = none ∧ st ≠ .ask .workspace := by simp [Step.item?]
    exact Or.inl (disk_rootless hb ho [.ask .genfiles] (steps.drop 3) (i := .classpath) (fun a => ⟨_, rfl⟩) hcalls
      (hanswer ▸ hroot) (hanswer ▸ hno))

/-- A run leaves the disk alone, or its root leads to a directory and the items done are placed below that. -/
theorem placed_trail (s : Session) :
    let t := trail b c o s
    (t.session.disk = s.disk ∧ t.done.filterMap Step.item? = []) ∨
      ∃ v r, t.progress.answers .workspace = some v ∧ s.disk.LeadsTo (.ofString v) r ∧
        Placed r (Item.content c o t.progress.answers) s.disk (t.done.filterMap Step.item?) t.session.disk := by
  intro t
  have ht : t = follow b c o (calls c ++ steps.tail) .start s := by rw [calls_append, ← trail_really ho]
  obtain ⟨hd, hreached⟩ := disk_calls (c := c) (o := o) (s := s) hb
  cases hf : (follow b c o (calls c) .start s).failure with
  | some f =>
    rw [follow_append_of_failure (by simp [hf])] at ht
    rw [ht]
    refine Or.inl ⟨hd, List.filterMap_eq_nil_iff.mpr fun st hst => item_calls (c := c) st ?_⟩
    exact (tried_follow _ _ _).1.subset (List.mem_append_left _ hst)
  | none =>
    obtain ⟨v, hprogress, hv⟩ := progress_calls hf
    rw [follow_append_of_done hf, hprogress] at ht
    generalize (follow b c o (calls c) .start s).reached = s₁ at ht hreached
    have hrest : ∀ st ∈ steps.tail, st ≠ .ask .workspace := by simp [steps]
    have hanswer := answers_follow (b := b) (c := c) (o := o) steps.tail hrest (Progress.start.learn .workspace v) s₁
    have hitems : (calls c).filterMap Step.item? = [] := List.filterMap_eq_nil_iff.mpr item_calls
    have hplaced := placed_steps (c := c) (s := s₁) hb ho hv
    rw [hreached] at hplaced
    rw [ht, Trail.after, List.filterMap_append, hitems, List.nil_append]
    obtain h | ⟨r, hr, h⟩ := hplaced
    · exact Or.inl h
    · exact Or.inr ⟨v, r, hanswer, hr, h⟩

end

/-- The steps before anything is placed. -/
def Step.isEarly : Step → Bool
  | .build _ => true
  | .ask q => q ≠ .bin
  | .place _ => false

theorem places_late (c : Config) (o : Options) :
    (script c o).Pairwise fun st later => later.isEarly = true → st.item? = none := by
  have hbuilds : ∀ st ∈ (if o.dryRun then [] else builds c), st.item? = none := by
    intro st hst
    split at hst
    · cases hst
    · exact item_builds st hst
  unfold script
  refine List.pairwise_append.mpr ⟨?_, by decide, fun st hst later _ _ => hbuilds st hst⟩
  exact List.pairwise_of_forall_mem_list fun st hst later _ _ => hbuilds st hst

section
variable (b : Bazel) (c : Config) (o : Options) (s : Session)

theorem done_script : (trail b c o s).done <+: script c o :=
  (List.prefix_append _ _).trans (tried_trail b c o s).1

theorem items_done : ∃ n, (trail b c o s).done.filterMap Step.item? = Item.all.take n := by
  have h := (done_script b c o s).filterMap Step.item?
  rw [items_script] at h
  exact ⟨_, List.prefix_iff_eq_take.mp h⟩

theorem items_of_early {st : Step} {e : Error} {s₁ : Session} (h : (trail b c o s).failure = some (st, e, s₁))
    (hst : st.isEarly = true) : (trail b c o s).done.filterMap Step.item? = [] := by
  have ht := (tried_trail b c o s).1
  simp only [Trail.tried, h, Option.map_some, Option.toList_some] at ht
  have hp := (places_late c o).sublist ht.sublist
  refine List.filterMap_eq_nil_iff.mpr fun x hx => ?_
  exact (List.pairwise_append.mp hp).2.2 x hx st (by simp) hst

end

section
variable {b : Bazel} {c : Config} {o : Options} {s : Session} (hb : b.runner.LeavesDisk) (ho : o.dryRun = false)
include hb ho

theorem disk_of_nothing_done (h : (trail b c o s).done.filterMap Step.item? = []) :
    (trail b c o s).session.disk = s.disk := by
  obtain ⟨hd, _⟩ | ⟨v, r, _, _, hplaced⟩ := placed_trail (c := c) hb ho s
  · exact hd
  · rw [h] at hplaced
    exact hplaced.eq_of_nil

theorem placed_of_leadsTo {v : String} {r : Location} (hv : (trail b c o s).progress.answers .workspace = some v)
    (hr : s.disk.LeadsTo (.ofString v) r) :
    Placed r (Item.content c o (trail b c o s).progress.answers) s.disk
      ((trail b c o s).done.filterMap Step.item?) (trail b c o s).session.disk := by
  obtain ⟨hd, hitems⟩ | ⟨v', r', hv', hr', hplaced⟩ := placed_trail (c := c) hb ho s
  · rw [hd, hitems]
    exact .nil
  · cases hv.symm.trans hv'
    cases hr.unique hr'
    exact hplaced

theorem disk_of_rootless
    (h : ∀ v r, (trail b c o s).progress.answers .workspace = some v → ¬ s.disk.LeadsTo (.ofString v) r) :
    (trail b c o s).session.disk = s.disk := by
  obtain ⟨hd, _⟩ | ⟨v, r, hv, hr, _⟩ := placed_trail (c := c) hb ho s
  · exact hd
  · exact absurd hr (h v r hv)

end

theorem nodup_all : Item.all.Nodup := by decide

theorem answers_trail (b : Bazel) (c : Config) (o : Options) (d : Disk) :
    (trail b c o (.ofDisk d)).progress.answers = answersIn (trail b c o (.ofDisk d)).session.log := by
  obtain ⟨new, hlog, ha⟩ := log_trail b c o (.ofDisk d)
  have hnew : (trail b c o (.ofDisk d)).session.log = new := hlog
  rw [hnew, ha]

/-- Below the root the first items hold what was generated for them, and everything else is as before. -/
structure Leftovers (c : Config) (o : Options) (a : Answers) (r : Location) (d d' : Disk) : Prop where
  workingDirectory : d'.workingDirectory = d.workingDirectory
  elsewhere : ∀ l, (∀ i : Item, l ≠ i.location r) → d'.entry? l = d.entry? l
  items : ∃ n, (∀ i ∈ Item.all.take n, d'.entry? (i.location r) = some (d.settled (i.location r) (i.content c o a))) ∧
    ∀ i ∈ Item.all.drop n, d'.entry? (i.location r) = d.entry? (i.location r)

theorem leftovers_of_placed {c : Config} {o : Options} {a : Answers} {r : Location} {d d' : Disk} {n : Nat}
    (h : Placed r (Item.content c o a) d (Item.all.take n) d') : Leftovers c o a r d d' := by
  refine ⟨h.workingDirectory, fun l hl => h.elsewhere fun i _ => hl i, n, fun i hi => ?_, fun i hi => ?_⟩
  · exact (h.there (nodup_all.sublist (List.take_sublist ..)) hi).2
  · refine h.elsewhere fun j hj hij => ?_
    obtain rfl := location_injective hij
    have hall : (Item.all.take n ++ Item.all.drop n).Nodup := by
      rw [List.take_append_drop]
      exact nodup_all
    exact (List.nodup_append.mp hall).2.2 i hj i hi rfl

/-- **What a real run leaves.** Nothing until bazel has built and told of the workspace and the generated files, and
nothing if the root does not lead to a directory. Otherwise the first items below the root, each as a whole. -/
theorem real_run_leftovers {b : Bazel} {o : Options} (hb : b.runner.LeavesDisk) (ho : o.dryRun = false) (c : Config)
    (d : Disk) :
    (run b c o).on (.ofDisk d) = ((trail b c o (.ofDisk d)).result o, (trail b c o (.ofDisk d)).session) ∧
    let t := trail b c o (.ofDisk d)
    let d' := t.session.disk
    let a := answersIn t.session.log
    (∀ st e s, t.failure = some (st, e, s) → st.isEarly = true → d' = d) ∧
    ((∀ v r, a .workspace = some v → ¬ d.LeadsTo (.ofString v) r) → d' = d) ∧
    ∀ v r, a .workspace = some v → d.LeadsTo (.ofString v) r → Leftovers c o a r d d' := by
  refine ⟨on_run .., ?_⟩
  intro t d' a
  have ha : t.progress.answers = a := answers_trail b c o d
  refine ⟨fun st e s hf hst => ?_, fun h => ?_, fun v r hv hr => ?_⟩
  · have hitems := items_of_early b c o (.ofDisk d) hf hst
    exact disk_of_nothing_done hb ho hitems
  · exact disk_of_rootless hb ho fun v r hv => h v r (ha ▸ hv)
  · have hplaced : Placed r (Item.content c o a) d (t.done.filterMap Step.item?) d' :=
      ha ▸ placed_of_leadsTo (c := c) (s := .ofDisk d) hb ho (ha ▸ hv) hr
    obtain ⟨n, hn⟩ := items_done b c o (.ofDisk d)
    rw [hn] at hplaced
    exact leftovers_of_placed hplaced

/-- A run that does not learn of the binaries leaves the first two files in the root. -/
theorem real_run_leftovers_without_binaries :
    let t : Bazel.AnswerTable :=
      ⟨[("workspace", .ok (Utf8.encode "/.//\n")), ("bazel-genfiles", .ok (Utf8.encode "/g\n"))], [], []⟩
    let b : Bazel := ⟨"bazel", t.runner⟩
    let left := trail b .default (really none) (.ofDisk .empty)
    b.runner.LeavesDisk ∧ (really none).dryRun = false ∧ answersIn left.session.log .workspace = some "/.//" ∧
      Disk.empty.LeadsTo (.ofString "/.//") [] ∧
      Leftovers .default (really none) (answersIn left.session.log) [] .empty left.session.disk ∧
      left.result (really none) = .error (.bazel (.exitStatus "bazel info bazel-bin" Bazel.unknownKey)) := by
  intro t b left
  have hb : b.runner.LeavesDisk := t.answersFrom_runner.toLeavesDisk
  have hv : answersIn left.session.log .workspace = some "/.//" := by
    simp only [left, b, t]
    decide +kernel
  have hr : Disk.empty.LeadsTo (.ofString "/.//") [] := ⟨rfl, rfl⟩
  exact ⟨hb, rfl, hv, hr, (real_run_leftovers hb rfl .default .empty).2.2.2 _ _ hv hr, rfl⟩

end EclipseProject.Setup
