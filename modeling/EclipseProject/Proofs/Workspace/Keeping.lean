import EclipseProject.Proofs.Workspace.Journal

/-!
# Files stay files and directories stay directories

No operation on the disk removes anything or puts a file where a directory is, whether it succeeds or not. So what a
path leads to once is there for good, and after an entry was placed its path leads to something of its kind.
-/

namespace EclipseProject.Disk

variable {d e f : Disk} {l : Location} {n : Name} {p : Path} {ps : List Path} {x : Entry} {bytes : List UInt8}
  {r : Except SystemError Unit} {content : Option String}

/-- What is there stays there, and is the same kind of thing. -/
structure Keeps (d e : Disk) : Prop where
  workingDirectory : e.workingDirectory = d.workingDirectory
  stays : ∀ l x, d.entry? l = some x → ∃ y, e.entry? l = some y ∧ y.isDirectory = x.isDirectory

namespace Keeps

theorem refl (d : Disk) : Keeps d d := ⟨rfl, fun _ x hx => ⟨x, hx, rfl⟩⟩

theorem trans (h : Keeps d e) (h' : Keeps e f) : Keeps d f := by
  refine ⟨h'.workingDirectory.trans h.workingDirectory, fun l x hx => ?_⟩
  obtain ⟨y, hy, hxy⟩ := h.stays l x hx
  obtain ⟨z, hz, hyz⟩ := h'.stays l y hy
  exact ⟨z, hz, hyz.trans hxy⟩

theorem extending (h : Keeps d e) : Extends d e := by
  refine ⟨h.workingDirectory, fun l hl => ?_, fun l hl => ?_⟩
  · obtain ⟨y, hy, hdirectory⟩ := h.stays l .directory hl
    cases y with
    | directory => exact hy
    | file c x => cases hdirectory
  · obtain ⟨x, hx⟩ := Option.isSome_iff_exists.mp hl
    obtain ⟨y, hy, _⟩ := h.stays l x hx
    rw [hy]
    rfl

/-- Something new, or something of the same kind in the place of what is there. -/
theorem put (hl : l ≠ []) (h : ∀ y, d.entry? l = some y → x.isDirectory = y.isDirectory) : Keeps d (d.put l x) := by
  refine ⟨workingDirectory_put d l x, fun k y hy => ?_⟩
  rw [entry?_put d hl]
  split
  · next hk => exact ⟨x, rfl, h y (hk ▸ hy)⟩
  · exact ⟨y, hy, rfl⟩

end Keeps

/-! ## One kept by each operation -/

theorem isDirectory_eq_false (h : some x ≠ some Entry.directory) : x.isDirectory = false := by
  cases x with
  | directory => exact absurd rfl h
  | file c x => rfl

theorem keeps_writeFile (h : d.writeFile p bytes = .ok e) : Keeps d e := by
  obtain ⟨l, n, _, _, _, _, hd, rfl⟩ := writeFile_ok_iff.mp h
  refine Keeps.put (by simp) fun y hy => ?_
  rw [hy] at hd
  exact (isDirectory_eq_false hd).symm

theorem makeDirectory_ok_iff : d.makeDirectory p = .ok e ↔
    ∃ l n, d.resolveParent p = .ok l ∧ lastName? p = some n ∧ n.length ≤ maxName ∧
      d.entry? (l ++ [n]) = none ∧ e = d.put (l ++ [n]) .directory := by
  cases hp : d.resolveParent p with
  | error c => simp [makeDirectory, hp, bind, Except.bind]
  | ok l =>
    cases hn : lastName? p with
    | none => simp [makeDirectory, hp, hn, bind, Except.bind, throw, throwThe, MonadExceptOf.throw]
    | some n =>
      by_cases hl : n.length ≤ maxName
      · rw [makeDirectory_of_parent hp hn hl]
        cases he : d.entry? (l ++ [n]) <;> simp [hl, he, eq_comm]
      · simp [makeDirectory, hp, hn, hl, Nat.not_le.mp hl, bind, Except.bind, throw, throwThe, MonadExceptOf.throw]

theorem keeps_settleDirectory (h : d.settleDirectory p = (r, e)) : Keeps d e := by
  unfold settleDirectory at h
  cases hm : d.makeDirectory p with
  | error c =>
    rw [hm] at h
    cases h
    exact Keeps.refl d
  | ok d' =>
    rw [hm] at h
    cases h
    obtain ⟨l, n, _, _, _, hnone, rfl⟩ := makeDirectory_ok_iff.mp hm
    exact Keeps.put (by simp) fun y hy => by simp [hnone] at hy

/-- Parents that were made stay although the directory itself cannot be made. -/
theorem keeps_ensureLineage (h : d.ensureLineage ps = (r, e)) : Keeps d e := by
  induction ps generalizing d e r with
  | nil =>
    cases h
    exact Keeps.refl d
  | cons p ps ih =>
    rw [ensureLineage] at h
    split at h
    · cases h
      exact Keeps.refl d
    split at h
    · next c d' hs =>
      have hfirst := keeps_settleDirectory hs
      split at h
      · split at h
        · next d'' hl => exact hfirst.trans ((ih hl).trans (keeps_settleDirectory h))
        · exact hfirst.trans (ih h)
      · cases h
        exact hfirst
    · exact keeps_settleDirectory h

theorem keeps_place (h : d.place p content = (r, e)) : Keeps d e := by
  cases content with
  | none => exact keeps_ensureLineage h
  | some contents =>
    rw [place] at h
    split at h
    · next d' hw =>
      cases h
      exact keeps_writeFile hw
    · cases h
      exact Keeps.refl d

/-! ## What a path leads to -/

theorem find?_eq_some_iff : d.find? p = some x ↔ ∃ l, d.resolve p = .ok l ∧ d.entry? l = some x := by
  unfold find?
  cases d.resolve p <;> simp

theorem find?_of_keeps (h : Keeps d e) (hx : d.find? p = some x) :
    ∃ y, e.find? p = some y ∧ y.isDirectory = x.isDirectory := by
  obtain ⟨l, hr, hl⟩ := find?_eq_some_iff.mp hx
  obtain ⟨y, hy, hkind⟩ := h.stays l x hl
  exact ⟨y, find?_eq_some_iff.mpr ⟨l, resolve_of_extends h.extending hr, hy⟩, hkind⟩

theorem isFile_iff : d.isFile p = true ↔ ∃ x, d.find? p = some x ∧ x.isDirectory = false := by
  simp [isFile, Option.any_eq_true]

theorem find?_of_parent (hp : d.resolveParent p = .ok l) (hn : lastName? p = some n) (hl : n.length ≤ maxName)
    (hx : d.entry? (l ++ [n]) = some x) (hs : p.endsInSlash = true → x = .directory) : d.find? p = some x := by
  have haccept := (resolveParent_ok_iff.mp hp).1
  have hwalk := walk_of_parent hp hn hl (by rw [hx]; rfl)
  exact find?_eq_some_iff.mpr ⟨l ++ [n], resolve_ok_iff.mpr ⟨haccept, hwalk, fun he => by rw [hx, hs he]⟩, hx⟩

/-! ## What was placed is there -/

/-- A file is written at one location. The path leads there afterwards, and before if something was there. -/
theorem location_of_writeFile (h : d.writeFile p bytes = .ok e) : ∃ l executable,
    e.resolve p = .ok l ∧ d.find? p = d.entry? l ∧ l ≠ [] ∧ e = d.put l (.file bytes executable) := by
  have hext := (keeps_writeFile h).extending
  obtain ⟨l, n, hp, hn, hs, hl, _, he⟩ := writeFile_ok_iff.mp h
  have hnew : (e.entry? (l ++ [n])).isSome := by
    rw [he, entry?_put d (by simp), if_pos rfl]
    rfl
  have ha := (resolveParent_ok_iff.mp hp).1
  have hw := walk_of_parent (resolveParent_of_extends hext hp) hn hl hnew
  refine ⟨l ++ [n], _, resolve_ok_iff.mpr ⟨ha, hw, by simp [hs]⟩, ?_, by simp, he⟩
  cases hx : d.entry? (l ++ [n]) with
  | some x => exact find?_of_parent hp hn hl hx (by simp [hs])
  | none =>
    unfold find?
    cases hr : d.resolve p with
    | error c => rfl
    | ok k =>
      obtain ⟨_, hsome⟩ := eq_of_walk_parent hp hn (resolve_ok_iff.mp hr).2.1
      rw [hx] at hsome
      cases hsome

theorem find?_of_writeFile (h : d.writeFile p bytes = .ok e) : ∃ c executable, e.find? p = some (.file c executable) := by
  obtain ⟨l, executable, hl, _, hne, rfl⟩ := location_of_writeFile h
  have hput := entry?_put d hne (.file bytes executable) l
  rw [if_pos rfl] at hput
  exact ⟨_, _, find?_eq_some_iff.mpr ⟨l, hl, hput⟩⟩

theorem find?_of_settleDirectory (h : d.settleDirectory p = (.ok (), e)) : e.find? p = some .directory := by
  have hext := (keeps_settleDirectory h).extending
  unfold settleDirectory at h
  cases hm : d.makeDirectory p with
  | error c =>
    rw [hm] at h
    by_cases hd : d.isDirectory p = true
    · simp only [hd, ite_true, Prod.mk.injEq, true_and] at h
      rw [← h]
      exact beq_iff_eq.mp hd
    · simp [hd] at h
  | ok d' =>
    rw [hm] at h
    cases h
    obtain ⟨l, n, hp, hn, hl, _, rfl⟩ := makeDirectory_ok_iff.mp hm
    have hput := entry?_put d (l := l ++ [n]) (by simp) .directory (l ++ [n])
    rw [if_pos rfl] at hput
    exact find?_of_parent (resolveParent_of_extends hext hp) hn hl hput fun _ => rfl

/-- However the parents came about, the directory itself is settled last. -/
theorem find?_of_ensureLineage (hne : p.bytes ≠ []) (h : d.ensureLineage (p :: ps) = (.ok (), e)) :
    e.find? p = some .directory := by
  rw [ensureLineage, if_neg hne] at h
  split at h
  · split at h
    · split at h
      · exact find?_of_settleDirectory h
      · next hno => exact absurd h (hno e)
    · cases h
  · exact find?_of_settleDirectory h

theorem find?_of_place (hne : p.bytes ≠ []) (h : d.place p content = (.ok (), e)) :
    ∃ x, e.find? p = some x ∧ x.isDirectory = content.isNone := by
  cases content with
  | none => exact ⟨.directory, find?_of_ensureLineage hne h, rfl⟩
  | some contents =>
    obtain ⟨c, executable, hx⟩ := find?_of_writeFile (place_file_ok_iff.mp h)
    exact ⟨_, hx, rfl⟩

end EclipseProject.Disk

namespace EclipseProject.Workspace

variable {w w' : Workspace} {s s' : Session} {e : Staging.Entry}

theorem fixed_of_place (h : (w.place e).on s = ⟨.ok (), w', s'⟩) : w'.dryRun = w.dryRun ∧ w'.root = w.root := by
  rw [eq_of_place_ok h]
  exact ⟨rfl, rfl⟩

theorem keeps_placeEach (hw : w.dryRun = false) (es : List Staging.Entry) :
    Disk.Keeps s.disk (w.placeEach s es).session.disk := by
  induction w, s, es using placing_induction with
  | nil w s => exact Disk.Keeps.refl s.disk
  | ok w s e es w' s' h ih =>
    rw [placeEach_cons_ok h]
    exact (Disk.keeps_place (disk_of_place_ok hw h)).trans (ih ((fixed_of_place h).1.trans hw))
  | error w s e es f s' h ih =>
    obtain ⟨cause, hplace⟩ := disk_of_place_error hw h
    rw [placeEach_cons_error h]
    exact (Disk.keeps_place hplace).trans (ih hw)

end EclipseProject.Workspace
