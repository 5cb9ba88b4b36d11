import EclipseProject.Disk.Operations
import EclipseProject.Proofs.Path.Join

/-!
# Where paths lead on a disk, and on a larger one

A path below a root is followed to the root first. What leads somewhere on a disk leads there on every disk that
extends it: directories stay directories and nothing disappears.
-/

namespace EclipseProject

def Path.Plain (n : Name) : Prop := n ≠ Path.dot ∧ n ≠ Path.dotDot

instance (n : Name) : Decidable (Path.Plain n) := inferInstanceAs (Decidable (_ ∧ _))

theorem bind_ok_iff {ε α β : Type} {x : Except ε α} {f : α → Except ε β} {b : β} :
    x >>= f = .ok b ↔ ∃ a, x = .ok a ∧ f a = .ok b := by
  cases x <;> simp [bind, Except.bind]

theorem bind_unit_ok_iff {ε β : Type} {x : Except ε Unit} {f : Unit → Except ε β} {b : β} :
    x >>= f = .ok b ↔ x = .ok () ∧ f () = .ok b := by
  cases x <;> simp [bind, Except.bind]

namespace Disk

variable {d e : Disk} {l k : Location} {n : Name} {p : Path}

/-! ## Steps and walks -/

theorem requireDirectory_ok_iff : d.requireDirectory l = .ok () ↔ d.entry? l = some .directory := by
  unfold requireDirectory
  split <;> simp_all

theorem step_ok_iff : d.step l n = .ok k ↔ d.entry? l = some .directory ∧
    ((n = Path.dot ∧ k = l) ∨ (n ≠ Path.dot ∧ n = Path.dotDot ∧ k = l.dropLast) ∨
      (Path.Plain n ∧ n.length ≤ maxName ∧ (d.entry? (l ++ [n])).isSome ∧ k = l ++ [n])) := by
  unfold step Path.Plain
  rw [bind_unit_ok_iff, requireDirectory_ok_iff]
  refine and_congr_right fun _ => ?_
  by_cases h₁ : n = Path.dot
  · simpa [h₁, pure, Except.pure] using eq_comm
  by_cases h₂ : n = Path.dotDot
  · have h₂' : Path.dotDot ≠ Path.dot := h₂ ▸ h₁
    simpa [h₂, h₂', pure, Except.pure] using eq_comm
  by_cases h₃ : n.length ≤ maxName
  · cases h₄ : d.entry? (l ++ [n]) with
    | none => simp [h₁, h₂, Nat.not_lt.mpr h₃, throw, throwThe, MonadExceptOf.throw, Functor.map, Except.map]
    | some x => simpa [h₁, h₂, h₃, Nat.not_lt.mpr h₃, h₄, pure, Except.pure] using eq_comm
  · simp [h₁, h₂, h₃, Nat.not_le.mp h₃, throw, throwThe, MonadExceptOf.throw, bind, Except.bind]

theorem walk_append_ok_iff {ms ns : List Name} :
    d.walk l (ms ++ ns) = .ok k ↔ ∃ m, d.walk l ms = .ok m ∧ d.walk m ns = .ok k := by
  unfold walk
  rw [List.foldlM_append, bind_ok_iff]

theorem walk_cons_ok_iff {ns : List Name} :
    d.walk l (n :: ns) = .ok k ↔ ∃ m, d.step l n = .ok m ∧ d.walk m ns = .ok k := by
  unfold walk
  rw [List.foldlM_cons, bind_ok_iff]

theorem directory_of_walk {ns : List Name} (h : d.walk l ns = .ok k) (hk : d.entry? k = some .directory) :
    d.entry? l = some .directory := by
  cases ns with
  | nil => cases h; exact hk
  | cons n ns =>
    obtain ⟨m, hs, _⟩ := walk_cons_ok_iff.mp h
    exact (step_ok_iff.mp hs).1

/-- Plain names lead downwards. -/
theorem eq_append_of_walk {ns : List Name} (hp : ∀ n ∈ ns, Path.Plain n) (h : d.walk l ns = .ok k) : k = l ++ ns := by
  induction ns generalizing l with
  | nil => cases h; simp
  | cons n ns ih =>
    obtain ⟨m, hs, hw⟩ := walk_cons_ok_iff.mp h
    have hn := hp n (by simp)
    obtain ⟨_, ⟨rfl, _⟩ | ⟨_, rfl, _⟩ | ⟨_, _, _, rfl⟩⟩ := step_ok_iff.mp hs
    · exact absurd rfl hn.1
    · exact absurd rfl hn.2
    · rw [ih (fun x hx => hp x (by simp [hx])) hw, List.append_assoc, List.singleton_append]

/-- A dot leads nowhere else. -/
theorem walk_filter_dot {ns : List Name} (h : d.walk l ns = .ok k) : d.walk l (ns.filter (· ≠ Path.dot)) = .ok k := by
  induction ns generalizing l with
  | nil => exact h
  | cons n ns ih =>
    obtain ⟨m, hs, hw⟩ := walk_cons_ok_iff.mp h
    by_cases hn : n = Path.dot
    · obtain ⟨_, ⟨_, rfl⟩ | ⟨hne, _⟩ | ⟨hplain, _⟩⟩ := step_ok_iff.mp hs
      · rw [List.filter_cons_of_neg (by simp [hn])]
        exact ih hw
      · exact absurd hn hne
      · exact absurd hn hplain.1
    · rw [List.filter_cons_of_pos (by simp [hn])]
      exact walk_cons_ok_iff.mpr ⟨m, hs, ih hw⟩

/-! ## Paths and their parents -/

theorem resolve_ok_iff : d.resolve p = .ok l ↔ accept p = .ok () ∧ d.walk (d.start p) p.pieces = .ok l ∧
    (p.endsInSlash = true → d.entry? l = some .directory) := by
  unfold resolve
  rw [bind_unit_ok_iff, bind_ok_iff]
  refine and_congr_right fun _ => ?_
  cases hs : p.endsInSlash with
  | false => simp [pure, Except.pure]
  | true =>
    simp only [ite_true, bind_unit_ok_iff, requireDirectory_ok_iff, pure, Except.pure, Except.ok.injEq]
    exact ⟨fun ⟨m, hw, hd, hm⟩ => ⟨hm ▸ hw, fun _ => hm ▸ hd⟩, fun ⟨hw, hd⟩ => ⟨l, hw, hd trivial, rfl⟩⟩

theorem resolveParent_ok_iff : d.resolveParent p = .ok l ↔ accept p = .ok () ∧
    d.walk (d.start p) p.pieces.dropLast = .ok l ∧ d.entry? l = some .directory := by
  unfold resolveParent
  rw [bind_unit_ok_iff, bind_ok_iff]
  simp only [bind_unit_ok_iff, requireDirectory_ok_iff, pure, Except.pure, Except.ok.injEq]
  exact and_congr_right fun _ =>
    ⟨fun ⟨m, hw, hd, hm⟩ => ⟨hm ▸ hw, hm ▸ hd⟩, fun ⟨hw, hd⟩ => ⟨l, hw, hd, rfl⟩⟩

/-! ## Paths below a root -/

def LeadsTo (d : Disk) (p : Path) (l : Location) : Prop := d.resolve p = .ok l ∧ d.entry? l = some .directory

theorem LeadsTo.unique (hl : d.LeadsTo p l) (hk : d.LeadsTo p k) : l = k := by
  have h := hl.1.symm.trans hk.1
  cases h
  rfl

theorem accept_ok_iff : accept p = .ok () ↔ 0 ∉ p.bytes ∧ p.bytes ≠ [] ∧ p.bytes.length < maxPath := by
  unfold accept
  by_cases h₀ : 0 ∈ p.bytes
  · simp [h₀]
  by_cases h₁ : p.bytes = []
  · simp [h₁]
  by_cases h₂ : p.bytes.length < maxPath
  · simp [h₀, h₁, h₂, Nat.not_le.mpr h₂]
  · simp [h₀, h₁, h₂, Nat.not_lt.mp h₂]

theorem accept_of_sublist {p' : Path} (hne : p.bytes ≠ []) (h : p.bytes.Sublist p'.bytes) (ha : accept p' = .ok ()) :
    accept p = .ok () := by
  obtain ⟨h₀, _, h₂⟩ := accept_ok_iff.mp ha
  exact accept_ok_iff.mpr ⟨fun hm => h₀ (h.subset hm), hne, Nat.lt_of_le_of_lt h.length_le h₂⟩

theorem LeadsTo.bytes_ne_nil (h : d.LeadsTo p l) : p.bytes ≠ [] :=
  (accept_ok_iff.mp (resolve_ok_iff.mp h.1).1).2.1

theorem start_join {root q : Path} (hq : q.isAbsolute = false) (d : Disk) : d.start (root.join q) = d.start root := by
  unfold start
  rw [Path.isAbsolute_join hq]

section
variable {root q : Path} (hroot : root.bytes ≠ []) (hq : q.isAbsolute = false)
include hroot hq

theorem accept_of_join (h : accept (root.join q) = .ok ()) : accept root = .ok () := by
  obtain ⟨h₀, _, h₂⟩ := accept_ok_iff.mp h
  exact accept_ok_iff.mpr
    ⟨fun hm => h₀ (Path.bytes_subset_join hq hm), hroot, Nat.lt_of_le_of_lt (Path.length_le_join hq) h₂⟩

theorem resolveParent_join_ok_iff (hne : q.pieces ≠ []) : d.resolveParent (root.join q) = .ok l ↔
    accept (root.join q) = .ok () ∧
      ∃ r, d.LeadsTo root r ∧ d.walk r q.pieces.dropLast = .ok l ∧ d.entry? l = some .directory := by
  rw [resolveParent_ok_iff, start_join hq, Path.pieces_join hq, List.dropLast_append_of_ne_nil hne,
    walk_append_ok_iff]
  refine and_congr_right fun ha => ⟨?_, ?_⟩
  · rintro ⟨⟨r, hr, hw⟩, hd⟩
    have hdr := directory_of_walk hw hd
    exact ⟨r, ⟨resolve_ok_iff.mpr ⟨accept_of_join hroot hq ha, hr, fun _ => hdr⟩, hdr⟩, hw, hd⟩
  · rintro ⟨r, ⟨hr, _⟩, hw, hd⟩
    exact ⟨⟨r, (resolve_ok_iff.mp hr).2.1, hw⟩, hd⟩

end

/-! ## Larger disks -/

/-- All directories of the first disk are directories of the second, and what is there is there. -/
structure Extends (d e : Disk) : Prop where
  workingDirectory : e.workingDirectory = d.workingDirectory
  directory : ∀ l, d.entry? l = some .directory → e.entry? l = some .directory
  present : ∀ l, (d.entry? l).isSome → (e.entry? l).isSome

/-- Whatever is put in a place where no directory is, or a directory anywhere, extends the disk. -/
theorem extends_put (hl : l ≠ []) {x : Entry} (h : d.entry? l ≠ some .directory ∨ x = .directory) :
    Extends d (d.put l x) := by
  refine ⟨workingDirectory_put d l x, fun k hk => ?_, fun k hk => ?_⟩
  · rw [entry?_put d hl]
    split
    · next e => rcases h with h | h
                · exact absurd (e ▸ hk) h
                · rw [h]
    · exact hk
  · rw [entry?_put d hl]
    split
    · rfl
    · exact hk

section
variable (h : Extends d e)
include h

theorem step_of_extends (hs : d.step l n = .ok k) : e.step l n = .ok k := by
  obtain ⟨hd, hn⟩ := step_ok_iff.mp hs
  refine step_ok_iff.mpr ⟨h.directory l hd, ?_⟩
  obtain hn | hn | ⟨hp, hl, hs, hk⟩ := hn
  · exact Or.inl hn
  · exact Or.inr (Or.inl hn)
  · exact Or.inr (Or.inr ⟨hp, hl, h.present _ hs, hk⟩)

theorem walk_of_extends {ns : List Name} (hw : d.walk l ns = .ok k) : e.walk l ns = .ok k := by
  induction ns generalizing l with
  | nil => exact hw
  | cons n ns ih =>
    obtain ⟨m, hs, hw⟩ := walk_cons_ok_iff.mp hw
    exact walk_cons_ok_iff.mpr ⟨m, step_of_extends h hs, ih hw⟩

theorem start_of_extends (p : Path) : e.start p = d.start p := by
  unfold start
  rw [h.workingDirectory]

theorem resolveParent_of_extends (hr : d.resolveParent p = .ok l) : e.resolveParent p = .ok l := by
  obtain ⟨ha, hw, hd⟩ := resolveParent_ok_iff.mp hr
  rw [resolveParent_ok_iff, start_of_extends h]
  exact ⟨ha, walk_of_extends h hw, h.directory l hd⟩

theorem resolve_of_extends (hr : d.resolve p = .ok l) : e.resolve p = .ok l := by
  obtain ⟨ha, hw, hs⟩ := resolve_ok_iff.mp hr
  refine resolve_ok_iff.mpr ⟨ha, ?_, fun he => h.directory l (hs he)⟩
  rw [start_of_extends h]
  exact walk_of_extends h hw

theorem leadsTo_of_extends (hr : d.LeadsTo p l) : e.LeadsTo p l :=
  ⟨resolve_of_extends h hr.1, h.directory l hr.2⟩

end

end Disk

end EclipseProject
