import EclipseProject.Proofs.Path.Sameness
import EclipseProject.Staging.Tree
import Mathlib.Data.List.Forall2

/-!
# Records that are the same

Two records are the same if their entries are, one by one, and an entry is looked up, listed and drawn by what its path
means. So whatever is asked of two such records, they answer alike, however their paths are spelt.
-/

namespace EclipseProject.Staging

variable {e f : Entry} {es fs : List Entry} {a b : Record} {p q : Path}

namespace Entry

theorem same_iff : e.same f = true ↔ e.destination.same f.destination = true ∧ e.content = f.content := by
  simp [same]

theorem isFile_eq_of_same (h : e.same f = true) : e.isFile = f.isFile := by
  rw [isFile, isFile, (same_iff.mp h).2]

theorem kind_eq_of_same (h : e.same f = true) : e.kind = f.kind := by
  rw [kind, kind, isFile_eq_of_same h]

theorem segments_eq_of_same (h : e.same f = true) : e.segments = f.segments := by
  rw [segments, segments, Path.names_eq_of_same (same_iff.mp h).1]

theorem same_path_eq_of_same (h : e.same f = true) (hpq : p.same q = true) :
    e.destination.same p = f.destination.same q := by
  have hdestination := Path.same_eq_true_iff.mp (same_iff.mp h).1
  have hpath := Path.same_eq_true_iff.mp hpq
  rw [Path.same, Path.same, hdestination, hpath]

end Entry

/-- Where related items pass the same test, the first that pass stand at the same index and are related. -/
theorem find?_of_forall₂ {α β : Type} {R : α → β → Prop} {t : α → Bool} {u : β → Bool} {xs : List α} {ys : List β}
    (htest : ∀ x y, R x y → t x = u y) (h : List.Forall₂ R xs ys) :
    (xs.find? t = none ∧ ys.find? u = none) ∨ ∃ i x y, xs.findIdx? t = some i ∧ ys.findIdx? u = some i ∧
      xs[i]? = some x ∧ ys[i]? = some y ∧ xs.find? t = some x ∧ ys.find? u = some y ∧ R x y := by
  induction h with
  | nil => exact Or.inl ⟨rfl, rfl⟩
  | @cons x y xs ys hxy hrest ih =>
    have hsame := htest x y hxy
    cases hu : u y with
    | true =>
      rw [hu] at hsame
      exact Or.inr ⟨0, x, y, by simp [List.findIdx?_cons, hsame], by simp [List.findIdx?_cons, hu], rfl, rfl,
        List.find?_cons_of_pos hsame, List.find?_cons_of_pos hu, hxy⟩
    | false =>
      rw [hu] at hsame
      have hx : (x :: xs).find? t = xs.find? t := List.find?_cons_of_neg (by simp [hsame])
      have hy : (y :: ys).find? u = ys.find? u := List.find?_cons_of_neg (by simp [hu])
      rw [hx, hy]
      obtain hnone | ⟨i, x', y', hi, hj, hxi, hyi, hx', hy', hxy'⟩ := ih
      · exact Or.inl hnone
      · exact Or.inr ⟨i + 1, x', y', by simp [List.findIdx?_cons, hsame, hi], by simp [List.findIdx?_cons, hu, hj], hxi,
          hyi, hx', hy', hxy'⟩

namespace Record

theorem sameEntries_iff : sameEntries es fs = true ↔ List.Forall₂ (fun e f => e.same f = true) es fs := by
  induction es generalizing fs with
  | nil => cases fs <;> simp [sameEntries]
  | cons e es ih => cases fs <;> simp [sameEntries, ih]

theorem same_iff : a.same b = true ↔ List.Forall₂ (fun e f => e.same f = true) a.entries b.entries := sameEntries_iff

theorem forall₂_files (h : a.same b = true) : List.Forall₂ (fun e f => e.same f = true) a.files b.files := by
  refine List.rel_filter (fun e f hef => ?_) (same_iff.mp h)
  exact Bool.eq_iff_iff.mp (Entry.isFile_eq_of_same hef)

theorem same_push (h : a.same b = true) (hef : e.same f = true) : (a.push e).same (b.push f) = true :=
  same_iff.mpr (List.rel_append (same_iff.mp h) (.cons hef .nil))

theorem ofRecord_eq_of_same (h : a.same b = true) (root : Path) : Tree.ofRecord a root = Tree.ofRecord b root := by
  have hfold : ∀ {es fs : List Entry}, List.Forall₂ (fun e f => e.same f = true) es fs → ∀ t : Tree,
      es.foldl (fun t e => t.insert e.kind e.segments) t = fs.foldl (fun t e => t.insert e.kind e.segments) t := by
    intro es fs hes
    induction hes with
    | nil => exact fun _ => rfl
    | cons hef _ ih =>
      intro t
      rw [List.foldl_cons, List.foldl_cons, Entry.kind_eq_of_same hef, Entry.segments_eq_of_same hef, ih]
  exact hfold (same_iff.mp h) _

/-- **Records that are the same cannot be told apart.** They find an entry at the same index under two spellings of a path,
list the same files, are drawn alike and stay the same with one entry more. Two paths are the same if their spellings differ
in repeated slashes, dots behind a slash and a slash at the end, and in nothing else: not in whether they are absolute, in a
dot that starts them, in a double dot or in a name. -/
theorem same_records_answer_alike (h : a.same b = true) :
    List.Forall₂ (fun e f => e.destination.same f.destination = true ∧ e.content = f.content) a.entries b.entries ∧
    (∀ p q : Path, p.same q = true → (a.get? p = none ∧ b.get? q = none) ∨
      ∃ i e f, a.entries.findIdx? (·.destination.same p) = some i ∧ b.entries.findIdx? (·.destination.same q) = some i ∧
        a.entries[i]? = some e ∧ b.entries[i]? = some f ∧ a.get? p = some e ∧ b.get? q = some f ∧ e.same f = true) ∧
    List.Forall₂ (fun e f => e.same f = true) a.files b.files ∧
    (∀ colored root, (Tree.ofRecord a root).draw colored = (Tree.ofRecord b root).draw colored) ∧
    (∀ e f : Entry, e.same f = true → (a.push e).same (b.push f) = true) ∧
    ∀ p q : Path, (p.same q = true ↔ Relation.EqvGen Path.Respelt p q) ∧
      (p.same q = true ↔ p.isAbsolute = q.isAbsolute ∧
        (p.segments.head? = some Path.dot ↔ q.segments.head? = some Path.dot) ∧
        Path.undotted p.pieces = Path.undotted q.pieces) := by
  have hentries := same_iff.mp h
  refine ⟨?_, ?_, forall₂_files h, ?_, ?_, ?_⟩
  · exact hentries.imp fun e f hef => Entry.same_iff.mp hef
  · intro p q hpq
    exact find?_of_forall₂ (fun e f hef => Entry.same_path_eq_of_same hef hpq) hentries
  · intro colored root
    rw [ofRecord_eq_of_same h]
  · intro e f hef
    exact same_push h hef
  · intro p q
    exact ⟨Path.same_iff_respelt, Path.same_iff⟩

/-- A byte that is no text, and every kind of other spelling. -/
theorem same_records_answer_alike_respelt :
    let a := Record.mk [⟨⟨[0x61, 0xFF, 0x2F, 0x2F, 0x62]⟩, some "1"⟩, ⟨.ofString "c", none⟩]
    let b := Record.mk [⟨⟨[0x61, 0xFF, 0x2F, 0x2E, 0x2F, 0x62, 0x2F]⟩, some "1"⟩, ⟨.ofString "c/.", none⟩]
    let root := Path.ofString "/w"
    a.same b = true ∧ a ≠ b ∧
      (∃ e f, a.get? (.ofString "c//") = some e ∧ b.get? (.ofString "c/./") = some f ∧ e.same f = true) ∧
      (Tree.ofRecord a root).draw true = (Tree.ofRecord b root).draw true ∧
      (Path.ofString "./c").same (.ofString "c") = false := by
  intro a b root
  have hsame : a.same b = true := by decide +kernel
  have hpath : (Path.ofString "c//").same (.ofString "c/./") = true := by decide +kernel
  have hsome : a.get? (.ofString "c//") ≠ none := by decide +kernel
  obtain ⟨_, hget, _, hdraw, _, hpaths⟩ := same_records_answer_alike hsame
  refine ⟨hsame, by decide +kernel, ?_, hdraw true root, ?_⟩
  · obtain ⟨hnone, _⟩ | ⟨i, e, f, _, _, _, _, he, hf, hef⟩ := hget _ _ hpath
    · exact absurd hnone hsome
    · exact ⟨e, f, he, hf, hef⟩
  · refine Bool.eq_false_iff.mpr fun h => ?_
    obtain ⟨_, hdot, _⟩ := (hpaths _ _).2.mp h
    exact absurd hdot (by decide +kernel)

end Record

end EclipseProject.Staging
