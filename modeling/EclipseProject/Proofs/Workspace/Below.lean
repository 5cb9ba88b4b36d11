import EclipseProject.Proofs.Workspace.Placing

/-!
# Placing below a root

A path aims at a location if its parent leads to the directory of it. There a file is placed unless a directory is
in the way, and a directory unless a file is; otherwise nothing happens. What does not aim anywhere is not placed.
-/

namespace EclipseProject

structure Path.Inner (q : Path) : Prop where
  relative : q.isAbsolute = false
  closed : q.endsInSlash = false
  some : q.pieces ≠ []
  plain : ∀ n ∈ q.pieces, Path.Plain n ∧ n.length ≤ Disk.maxName

theorem Path.Inner.bytes_ne_nil {q : Path} (hq : q.Inner) : q.bytes ≠ [] := by
  intro h
  have hp := hq.some
  simp [Path.pieces, Path.segments, h, Path.split] at hp

namespace Disk

variable {d e : Disk} {p root q : Path} {l k r : Location} {n : Name} {content : Option String}

def settled (d : Disk) (l : Location) : Option String → Entry
  | some contents => .file (Utf8.encode contents) (d.isExecutable l)
  | none => .directory

def settle (d : Disk) (l : Location) (content : Option String) : Disk := d.put l (d.settled l content)

def Admits (d : Disk) (l : Location) : Option String → Prop
  | some _ => d.entry? l ≠ some .directory
  | none => d.entry? l = none ∨ d.entry? l = some .directory

def Aims (d : Disk) (p : Path) (l : Location) : Prop :=
  ∃ k n, d.resolveParent p = .ok k ∧ lastName? p = some n ∧ n.length ≤ maxName ∧ l = k ++ [n]

theorem put_eq_self {x : Entry} (h : d.entry? l = some x) : d.put l x = d := by
  refine ext_entry? (workingDirectory_put d l x) fun k => ?_
  by_cases hl : l = []
  · simp [put, hl]
  · rw [entry?_put d hl]
    split
    · next hk => rw [hk, h]
    · rfl

theorem aims_of_extends (h : Extends d e) (ha : d.Aims p l) : e.Aims p l := by
  obtain ⟨k, n, hp, hn, hl, rfl⟩ := ha
  exact ⟨k, n, resolveParent_of_extends h hp, hn, hl, rfl⟩

theorem extends_settle (hl : l ≠ []) (h : d.Admits l content) : Extends d (d.settle l content) := by
  cases content with
  | none => exact extends_put hl (Or.inr rfl)
  | some contents => exact extends_put hl (Or.inl h)

theorem leadsTo_settle (hr : d.LeadsTo p r) (hl : l ≠ []) (h : d.Admits l content) :
    (d.settle l content).LeadsTo p r :=
  leadsTo_of_extends (extends_settle hl h) hr

theorem admits_congr (h : d.entry? l = e.entry? l) (content : Option String) :
    (d.Admits l content ↔ e.Admits l content) ∧ d.settled l content = e.settled l content := by
  cases content <;> simp [Admits, settled, isExecutable, h]

theorem place_of_aims (ha : d.Aims p l) (hs : p.endsInSlash = false) (content : Option String) :
    (d.Admits l content ∧ d.place p content = (.ok (), d.settle l content)) ∨
      (¬ d.Admits l content ∧ ∃ cause, d.place p content = (.error cause, d)) := by
  obtain ⟨k, n, hp, hn, hl, rfl⟩ := ha
  cases content with
  | none =>
    have h : d.place p none = _ := ensureDirectory_of_parent hp hn hl
    cases he : d.entry? (k ++ [n]) with
    | none => exact Or.inl ⟨Or.inl he, by simpa [he, settle, settled] using h⟩
    | some x =>
      cases x with
      | directory =>
        refine Or.inl ⟨Or.inr he, ?_⟩
        have hput : d.settle (k ++ [n]) none = d := put_eq_self he
        rw [hput]
        simpa [he] using h
      | file c x => exact Or.inr ⟨by simp [Admits, he], _, by simpa [he] using h⟩
  | some contents =>
    by_cases he : d.entry? (k ++ [n]) = some .directory
    · refine Or.inr ⟨fun h => h he, ?_⟩
      cases hw : d.writeFile p (Utf8.encode contents) with
      | error cause => exact ⟨cause, by simp [place, hw]⟩
      | ok e =>
        obtain ⟨k', n', hp', hn', _, _, hd, _⟩ := writeFile_ok_iff.mp hw
        cases hp.symm.trans hp'
        cases hn.symm.trans hn'
        exact absurd he hd
    · have hw : d.writeFile p (Utf8.encode contents) = .ok (d.settle (k ++ [n]) (some contents)) :=
        writeFile_ok_iff.mpr ⟨k, n, hp, hn, hs, hl, he, rfl⟩
      exact Or.inl ⟨he, by simp [place, hw]⟩

theorem aims_of_place {contents : String} (h : d.place p (some contents) = (.ok (), e)) : ∃ l, d.Aims p l := by
  cases hw : d.writeFile p (Utf8.encode contents) with
  | error cause => simp [place, hw] at h
  | ok e' =>
    obtain ⟨k, n, hp, hn, _, hl, _⟩ := writeFile_ok_iff.mp hw
    exact ⟨k ++ [n], k, n, hp, hn, hl, rfl⟩

theorem place_file_error {contents : String} (h : ∀ l, ¬ d.Aims p l) :
    ∃ cause, d.place p (some contents) = (.error cause, d) := by
  cases hw : d.writeFile p (Utf8.encode contents) with
  | error cause => exact ⟨cause, by simp [place, hw]⟩
  | ok e =>
    have hp : d.place p (some contents) = (.ok (), e) := by simp [place, hw]
    obtain ⟨l, hl⟩ := aims_of_place hp
    exact absurd hl (h l)

/-! ## Below a root -/

section
variable (hq : q.Inner)
include hq

theorem endsInSlash_join (root : Path) : (root.join q).endsInSlash = false := by
  rw [Path.endsInSlash_join hq.relative hq.bytes_ne_nil]
  exact hq.closed

theorem lastName?_join (root : Path) : ∃ n, lastName? (root.join q) = some n ∧ n.length ≤ maxName ∧
    q.pieces = q.pieces.dropLast ++ [n] := by
  have hlast : q.pieces.getLast? = some (q.pieces.getLast hq.some) := List.getLast?_eq_some_getLast hq.some
  obtain ⟨hplain, hlength⟩ := hq.plain _ (List.getLast_mem hq.some)
  refine ⟨q.pieces.getLast hq.some, ?_, hlength, (List.dropLast_concat_getLast hq.some).symm⟩
  rw [lastName?_eq_some_iff, Path.pieces_join hq.relative, List.getLast?_append, hlast]
  exact ⟨rfl, hplain⟩

theorem aims_join (hroot : root.bytes ≠ []) (ha : d.Aims (root.join q) l) :
    ∃ r, d.LeadsTo root r ∧ l = r ++ q.pieces := by
  obtain ⟨k, n, hp, hn, _, rfl⟩ := ha
  obtain ⟨_, r, hr, hw, _⟩ := (resolveParent_join_ok_iff hroot hq.relative hq.some).mp hp
  obtain ⟨n', hn', _, hpieces⟩ := lastName?_join hq root
  cases hn.symm.trans hn'
  have hk := eq_append_of_walk (fun x hx => (hq.plain x (List.dropLast_subset _ hx)).1) hw
  exact ⟨r, hr, by rw [hk, hpieces, List.dropLast_concat, List.append_assoc]⟩

/-- Directly below a root every path aims that the system takes. -/
theorem aims_of_accept (hr : d.LeadsTo root r) (hsingle : q.pieces.dropLast = [])
    (ha : accept (root.join q) = .ok ()) : d.Aims (root.join q) (r ++ q.pieces) := by
  obtain ⟨n, hn, hl, hpieces⟩ := lastName?_join hq root
  refine ⟨r, n, ?_, hn, hl, ?_⟩
  · refine (resolveParent_join_ok_iff hr.bytes_ne_nil hq.relative hq.some).mpr ⟨ha, r, hr, ?_, hr.2⟩
    rw [hsingle]
    rfl
  · rw [hpieces, hsingle, List.nil_append]

/-- Below a root that leads to a directory, placing succeeds at the location or does nothing. -/
theorem place_below (hr : d.LeadsTo root r) (hc : content = none → q.pieces.dropLast = []) :
    (d.Aims (root.join q) (r ++ q.pieces) ∧ d.Admits (r ++ q.pieces) content ∧
        d.place (root.join q) content = (.ok (), d.settle (r ++ q.pieces) content)) ∨
      ∃ cause, d.place (root.join q) content = (.error cause, d) := by
  have hroot := hr.bytes_ne_nil
  by_cases ha : ∃ l, d.Aims (root.join q) l
  · obtain ⟨l, ha⟩ := ha
    obtain ⟨r', hr', rfl⟩ := aims_join hq hroot ha
    cases hr.unique hr'
    obtain ⟨hadmits, hplace⟩ | ⟨_, h⟩ := place_of_aims ha (endsInSlash_join hq root) content
    · exact Or.inl ⟨ha, hadmits, hplace⟩
    · exact Or.inr h
  · cases content with
    | some contents => exact Or.inr (place_file_error fun l hl => ha ⟨l, hl⟩)
    | none =>
      cases haccept : accept (root.join q) with
      | ok u => exact absurd ⟨_, aims_of_accept hq hr (hc rfl) haccept⟩ ha
      | error cause =>
        have hne := Path.bytes_join_ne_nil hq.relative hroot
        exact Or.inr ⟨cause, ensureDirectory_of_refused hne haccept⟩

/-- A file is not placed below a root that leads to no directory. -/
theorem place_file_of_rootless {contents : String} (hroot : root.bytes ≠ []) (hr : ∀ r, ¬ d.LeadsTo root r) :
    ∃ cause, d.place (root.join q) (some contents) = (.error cause, d) := by
  refine place_file_error fun l ha => ?_
  obtain ⟨r, h, _⟩ := aims_join hq hroot ha
  exact hr r h

end

end Disk

end EclipseProject
