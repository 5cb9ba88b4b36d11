import EclipseProject.Proofs.Disk.Following

/-!
# What writing a file and ensuring a directory come to

Both act on one place, the last name of the path in the directory where its parent leads. A file is written unless
a directory is in its place; a directory is made unless a file is.
-/

namespace EclipseProject.Disk

variable {d e : Disk} {l k : Location} {n : Name} {p : Path} {bytes : List UInt8}

/-- Whether the file at a location can be executed. A new one cannot. -/
def isExecutable (d : Disk) (l : Location) : Bool :=
  match d.entry? l with
  | some (.file _ executable) => executable
  | _ => false

theorem lastName?_eq_some_iff : lastName? p = some n ↔ p.pieces.getLast? = some n ∧ Path.Plain n := by
  unfold lastName? Path.Plain
  simp [Option.filter_eq_some_iff]

theorem pieces_eq_of_lastName? (h : lastName? p = some n) : p.pieces = p.pieces.dropLast ++ [n] := by
  obtain ⟨xs, hx⟩ := List.getLast?_eq_some_iff.mp (lastName?_eq_some_iff.mp h).1
  rw [hx, List.dropLast_concat]

/-! ## Files -/

theorem writeFile_ok_iff : d.writeFile p bytes = .ok e ↔
    ∃ l n, d.resolveParent p = .ok l ∧ lastName? p = some n ∧ p.endsInSlash = false ∧ n.length ≤ maxName ∧
      d.entry? (l ++ [n]) ≠ some .directory ∧
      e = d.put (l ++ [n]) (.file bytes (d.isExecutable (l ++ [n]))) := by
  unfold writeFile
  rw [bind_ok_iff]
  refine exists_congr fun l => ?_
  cases hn : lastName? p with
  | none => simp [throw, throwThe, MonadExceptOf.throw]
  | some n =>
    cases hs : p.endsInSlash with
    | true => simp [throw, throwThe, MonadExceptOf.throw, bind, Except.bind]
    | false =>
      by_cases hl : n.length ≤ maxName
      · cases he : d.entry? (l ++ [n]) with
        | none => simp [Nat.not_lt.mpr hl, hl, he, isExecutable, pure, Except.pure, eq_comm]
        | some x =>
          cases x with
          | directory => simp [Nat.not_lt.mpr hl, he, throw, throwThe, MonadExceptOf.throw]
          | file c x => simp [Nat.not_lt.mpr hl, hl, he, isExecutable, pure, Except.pure, eq_comm]
      · simp [Nat.not_le.mp hl, hl, throw, throwThe, MonadExceptOf.throw, bind, Except.bind]

/-! ## Directories -/

theorem isDirectory_iff : d.isDirectory p = true ↔ ∃ l, d.LeadsTo p l := by
  unfold isDirectory find? LeadsTo
  cases d.resolve p with
  | error c => simp
  | ok l => simp

theorem eq_of_walk_parent (hp : d.resolveParent p = .ok l) (hn : lastName? p = some n)
    (hk : d.walk (d.start p) p.pieces = .ok k) : k = l ++ [n] ∧ (d.entry? (l ++ [n])).isSome := by
  obtain ⟨_, hw, _⟩ := resolveParent_ok_iff.mp hp
  obtain ⟨_, hdot, hdotDot⟩ := lastName?_eq_some_iff.mp hn
  rw [pieces_eq_of_lastName? hn, walk_append_ok_iff] at hk
  obtain ⟨m, hm, hs⟩ := hk
  cases hw.symm.trans hm
  obtain ⟨k', hs, hk'⟩ := walk_cons_ok_iff.mp hs
  cases hk'
  obtain ⟨_, ⟨h, _⟩ | ⟨_, h, _⟩ | ⟨_, _, hsome, rfl⟩⟩ := step_ok_iff.mp hs
  · exact absurd h hdot
  · exact absurd h hdotDot
  · exact ⟨rfl, hsome⟩

section
variable (hp : d.resolveParent p = .ok l) (hn : lastName? p = some n) (hl : n.length ≤ maxName)
include hp hn hl

theorem walk_of_parent (hx : (d.entry? (l ++ [n])).isSome) : d.walk (d.start p) p.pieces = .ok (l ++ [n]) := by
  obtain ⟨_, hw, hd⟩ := resolveParent_ok_iff.mp hp
  have hplain := (lastName?_eq_some_iff.mp hn).2
  rw [pieces_eq_of_lastName? hn, walk_append_ok_iff]
  exact ⟨l, hw, walk_cons_ok_iff.mpr ⟨l ++ [n], step_ok_iff.mpr ⟨hd, Or.inr (Or.inr ⟨hplain, hl, hx, rfl⟩)⟩, rfl⟩⟩

theorem leadsTo_iff_of_parent : d.LeadsTo p k ↔ k = l ++ [n] ∧ d.entry? (l ++ [n]) = some .directory := by
  constructor
  · rintro ⟨hr, hk⟩
    obtain ⟨rfl, _⟩ := eq_of_walk_parent hp hn (resolve_ok_iff.mp hr).2.1
    exact ⟨rfl, hk⟩
  · rintro ⟨rfl, hk⟩
    have hsome : (d.entry? (l ++ [n])).isSome := by rw [hk]; rfl
    have ha := (resolveParent_ok_iff.mp hp).1
    exact ⟨resolve_ok_iff.mpr ⟨ha, walk_of_parent hp hn hl hsome, fun _ => hk⟩, hk⟩

theorem makeDirectory_of_parent : d.makeDirectory p =
    if (d.entry? (l ++ [n])).isSome then .error .alreadyExists else .ok (d.put (l ++ [n]) .directory) := by
  unfold makeDirectory
  rw [hp]
  cases he : d.entry? (l ++ [n]) <;>
    simp [hn, Nat.not_lt.mpr hl, he, bind, Except.bind, pure, Except.pure, throw, throwThe, MonadExceptOf.throw]

theorem settleDirectory_of_parent : d.settleDirectory p =
    match d.entry? (l ++ [n]) with
    | none => (.ok (), d.put (l ++ [n]) .directory)
    | some .directory => (.ok (), d)
    | some (.file ..) => (.error .alreadyExists, d) := by
  unfold settleDirectory
  rw [makeDirectory_of_parent hp hn hl]
  cases he : d.entry? (l ++ [n]) with
  | none => simp
  | some x =>
    cases x with
    | directory =>
      have hd : d.isDirectory p = true :=
        isDirectory_iff.mpr ⟨l ++ [n], (leadsTo_iff_of_parent hp hn hl).mpr ⟨rfl, he⟩⟩
      simp [hd]
    | file c x =>
      have hd : ¬ d.isDirectory p = true := fun h => by
        obtain ⟨k, hk⟩ := isDirectory_iff.mp h
        have := ((leadsTo_iff_of_parent hp hn hl).mp hk).2
        rw [he] at this
        cases this
      simp [hd]

end

/-- Where the directory itself can be settled, nothing is done to its parents. -/
theorem ensureDirectory_of_settled (hne : p.bytes ≠ []) {r : Except SystemError Unit}
    (h : d.settleDirectory p = (r, e)) (hr : r ≠ .error .notFound) : d.ensureDirectory p = (r, e) := by
  unfold ensureDirectory Path.lineage Path.lineageUpTo ensureLineage
  rw [if_neg hne, h]
  cases r with
  | ok u => rfl
  | error c =>
    have hc : c ≠ .notFound := fun hc => hr (by rw [hc])
    simp [hc]

theorem ensureDirectory_of_parent (hp : d.resolveParent p = .ok l) (hn : lastName? p = some n)
    (hl : n.length ≤ maxName) : d.ensureDirectory p =
    match d.entry? (l ++ [n]) with
    | none => (.ok (), d.put (l ++ [n]) .directory)
    | some .directory => (.ok (), d)
    | some (.file ..) => (.error .alreadyExists, d) := by
  have hne := (accept_ok_iff.mp (resolveParent_ok_iff.mp hp).1).2.1
  have hs := settleDirectory_of_parent hp hn hl
  split at hs
  · exact ensureDirectory_of_settled hne hs (by simp)
  · exact ensureDirectory_of_settled hne hs (by simp)
  · exact ensureDirectory_of_settled hne hs (by simp [SystemError.alreadyExists, SystemError.notFound])

theorem ensureDirectory_of_refused (hne : p.bytes ≠ []) {c : SystemError} (h : accept p = .error c) :
    d.ensureDirectory p = (.error c, d) := by
  have hd : ¬ d.isDirectory p = true := fun hd => by
    obtain ⟨k, hk⟩ := isDirectory_iff.mp hd
    rw [(resolve_ok_iff.mp hk.1).1] at h
    cases h
  have hm : d.makeDirectory p = .error c := by
    unfold makeDirectory resolveParent
    rw [h]
    rfl
  refine ensureDirectory_of_settled hne (by simp [settleDirectory, hm, hd]) fun hc => ?_
  cases hc
  unfold accept at h
  rw [if_neg hne] at h
  split at h
  · cases h
  · split at h
    · simp [SystemError.nameTooLong, SystemError.notFound] at h
    · cases h

end EclipseProject.Disk
