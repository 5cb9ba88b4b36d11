import EclipseProject.Proofs.Workspace.Keeping

/-!
# What making directories adds

Whether a directory can be made with its parents or not, nothing changes but that directories come. Each of them is
where one of the paths leads, and if the directory itself is refused, where one of its parents leads.
-/

namespace EclipseProject.Disk

variable {d e f : Disk} {l k : Location} {n : Name} {p : Path} {ps : List Path} {r : Except SystemError Unit}
  {P Q : Path → Prop} {x : Entry}

/-- Some directories are new, and each of them is where one of certain paths leads. -/
structure Adds (P : Path → Prop) (d e : Disk) : Prop where
  workingDirectory : e.workingDirectory = d.workingDirectory
  new : ∀ l, e.entry? l ≠ d.entry? l → d.entry? l = none ∧ e.entry? l = some .directory ∧ ∃ p, P p ∧ e.LeadsTo p l

namespace Adds

theorem refl (P : Path → Prop) (d : Disk) : Adds P d d := ⟨rfl, fun _ h => absurd rfl h⟩

theorem mono (h : Adds P d e) (hPQ : ∀ p, P p → Q p) : Adds Q d e := by
  refine ⟨h.workingDirectory, fun l hl => ?_⟩
  obtain ⟨hnone, hdirectory, p, hp, hleads⟩ := h.new l hl
  exact ⟨hnone, hdirectory, p, hPQ p hp, hleads⟩

theorem stays (h : Adds P d e) (hl : d.entry? l = some x) : e.entry? l = some x := by
  by_cases he : e.entry? l = d.entry? l
  · exact he.trans hl
  · have hnone := (h.new l he).1
    rw [hl] at hnone
    cases hnone

theorem keeps (h : Adds P d e) : Keeps d e := ⟨h.workingDirectory, fun _ x hx => ⟨x, h.stays hx, rfl⟩⟩

theorem trans (h : Adds P d e) (h' : Adds P e f) : Adds P d f := by
  refine ⟨h'.workingDirectory.trans h.workingDirectory, fun l hl => ?_⟩
  by_cases he : e.entry? l = d.entry? l
  · rw [← he] at hl ⊢
    exact h'.new l hl
  · obtain ⟨hnone, hdirectory, p, hp, hleads⟩ := h.new l he
    exact ⟨hnone, h'.stays hdirectory, p, hp, leadsTo_of_extends h'.keeps.extending hleads⟩

end Adds

/-! ## One directory -/

/-- Settling makes the directory at its place or does nothing, and nothing if the path ends in no name. -/
theorem settleDirectory_cases (h : d.settleDirectory p = (r, e)) :
    e = d ∨ r = .ok () ∧ (lastName? p).isSome ∧ Adds (· = p) d e := by
  have hext := (keeps_settleDirectory h).extending
  unfold settleDirectory at h
  cases hm : d.makeDirectory p with
  | error c =>
    rw [hm] at h
    cases h
    exact Or.inl rfl
  | ok d' =>
    rw [hm] at h
    cases h
    obtain ⟨l, n, hp, hn, hl, hnone, rfl⟩ := makeDirectory_ok_iff.mp hm
    refine Or.inr ⟨rfl, by rw [hn]; rfl, workingDirectory_put .., fun k hk => ?_⟩
    have hput := entry?_put d (l := l ++ [n]) (by simp) .directory
    rw [hput] at hk
    split at hk
    · next hkl =>
      have hnew := (hput (l ++ [n])).trans (if_pos rfl)
      rw [hkl]
      exact ⟨hnone, hnew, p, rfl, (leadsTo_iff_of_parent (resolveParent_of_extends hext hp) hn hl).mpr ⟨rfl, hnew⟩⟩
    · exact absurd rfl hk

theorem adds_settleDirectory (h : d.settleDirectory p = (r, e)) : Adds (· = p) d e := by
  obtain rfl | ⟨_, _, hadds⟩ := settleDirectory_cases h
  · exact Adds.refl _ _
  · exact hadds

/-! ## A directory and its parents -/

theorem adds_ensureLineage (h : d.ensureLineage ps = (r, e)) : Adds (· ∈ ps) d e := by
  induction ps generalizing d e r with
  | nil =>
    cases h
    exact Adds.refl _ d
  | cons p ps ih =>
    have hfirst : ∀ {d e r}, settleDirectory d p = (r, e) → Adds (· ∈ p :: ps) d e := fun hs =>
      (adds_settleDirectory hs).mono fun q hq => hq ▸ List.mem_cons_self ..
    have hparents : ∀ {d e r}, ensureLineage d ps = (r, e) → Adds (· ∈ p :: ps) d e := fun hl =>
      (ih hl).mono fun q hq => List.mem_cons_of_mem p hq
    rw [ensureLineage] at h
    split at h
    · cases h
      exact Adds.refl _ d
    split at h
    · next c d' hs =>
      split at h
      · split at h
        · next d'' hl => exact (hfirst hs).trans ((hparents hl).trans (hfirst h))
        · exact (hfirst hs).trans (hparents h)
      · cases h
        exact hfirst hs
    · exact hfirst h

/-- A directory that is not made itself has only parents made for it. -/
theorem adds_parents (h : d.ensureLineage (p :: ps) = (r, e)) (hnot : r ≠ .ok () ∨ lastName? p = none) :
    Adds (· ∈ ps) d e := by
  have hfirst : ∀ {d r' e}, settleDirectory d p = (r', e) → r' ≠ .ok () ∨ lastName? p = none → e = d := by
    intro d r' e hs hnot
    obtain rfl | ⟨hok, hname, _⟩ := settleDirectory_cases hs
    · rfl
    · rcases hnot with hr | hn
      · exact absurd hok hr
      · simp [hn] at hname
  rw [ensureLineage] at h
  split at h
  · cases h
    exact Adds.refl _ d
  split at h
  · next c d' hs =>
    obtain rfl := hfirst hs (Or.inl (by simp))
    split at h
    · split at h
      · next d'' hl =>
        rw [hfirst h hnot]
        exact adds_ensureLineage hl
      · exact adds_ensureLineage h
    · cases h
      exact Adds.refl _ _
  · rw [hfirst h hnot]
    exact Adds.refl _ d

end EclipseProject.Disk
