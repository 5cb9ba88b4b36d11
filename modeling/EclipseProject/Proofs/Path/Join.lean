import EclipseProject.Path.Basic

/-!
# Pieces of joined paths

A path placed below another has the pieces of both, starts where the other starts and ends as it ends itself.
-/

namespace EclipseProject.Path

/-! ## Splitting at slashes -/

theorem split_ne_nil (bytes : List UInt8) : split bytes ≠ [] := by
  cases bytes with
  | nil => simp [split]
  | cons b rest =>
    unfold split
    split
    · simp
    · split <;> simp

theorem split_cons {b : UInt8} (h : b ≠ slash) {rest : List UInt8} {n : Name} {more : List Name}
    (hr : split rest = n :: more) : split (b :: rest) = (b :: n) :: more := by
  simp [split, h, hr]

theorem split_append_slash (xs ys : List UInt8) : split (xs ++ slash :: ys) = split xs ++ split ys := by
  induction xs with
  | nil => simp [split]
  | cons x xs ih =>
    by_cases hx : x = slash
    · simp [split, hx, ih]
    · obtain ⟨n, more, hs⟩ := List.exists_cons_of_ne_nil (split_ne_nil xs)
      have happ : split (xs ++ slash :: ys) = n :: (more ++ split ys) := by rw [ih, hs, List.cons_append]
      rw [List.cons_append, split_cons hx happ, split_cons hx hs, List.cons_append]

/-! ## Joining -/

section
variable {p q : Path}

theorem exists_of_endsInSlash (h : p.endsInSlash = true) : ∃ xs, p.bytes = xs ++ [slash] := by
  have hl : p.bytes.getLast? = some slash := by simpa [endsInSlash] using h
  exact List.getLast?_eq_some_iff.mp hl

variable (hq : q.isAbsolute = false)
include hq

/-- What stands before the second path: nothing, or something that ends in a slash. -/
theorem bytes_join : ∃ xs, (p.join q).bytes = xs ++ q.bytes ∧
    ((p.bytes = [] ∧ xs = []) ∨ (p.endsInSlash = true ∧ xs = p.bytes) ∨ xs = p.bytes ++ [slash]) := by
  unfold join
  simp only [hq, Bool.false_eq_true, ite_false]
  split
  · next h =>
    rcases h with h | h
    · exact ⟨p.bytes, rfl, Or.inl ⟨h, h⟩⟩
    · exact ⟨p.bytes, rfl, Or.inr (Or.inl ⟨h, rfl⟩)⟩
  · exact ⟨p.bytes ++ [slash], by simp, Or.inr (Or.inr rfl)⟩

theorem pieces_join : (p.join q).pieces = p.pieces ++ q.pieces := by
  obtain ⟨xs, hb, ⟨hp, rfl⟩ | ⟨hs, rfl⟩ | rfl⟩ := bytes_join (p := p) hq
  · simp [pieces, segments, hb, hp, split]
  · obtain ⟨ys, hy⟩ := exists_of_endsInSlash hs
    have hbase : split (ys ++ [slash]) = split ys ++ [[]] := by simpa [split] using split_append_slash ys []
    simp [pieces, segments, hb, hy, hbase, split_append_slash]
  · simp [pieces, segments, hb, split_append_slash]

theorem isAbsolute_join : (p.join q).isAbsolute = p.isAbsolute := by
  by_cases hp : p.bytes = []
  · have hempty : p.isAbsolute = false := by simp [isAbsolute, hp]
    have hj : p.join q = q := by simp [join, hq, hp]
    rw [hj, hq, hempty]
  obtain ⟨b, bs, hc⟩ := List.exists_cons_of_ne_nil hp
  obtain ⟨xs, hb, ⟨h, _⟩ | ⟨_, rfl⟩ | rfl⟩ := bytes_join (p := p) hq
  · exact absurd h hp
  · simp [isAbsolute, hb, hc]
  · simp [isAbsolute, hb, hc]

theorem endsInSlash_join (hne : q.bytes ≠ []) : (p.join q).endsInSlash = q.endsInSlash := by
  obtain ⟨xs, hb, _⟩ := bytes_join (p := p) hq
  simp [endsInSlash, hb, List.getLast?_append, List.getLast?_eq_some_getLast hne]

theorem bytes_subset_join : p.bytes ⊆ (p.join q).bytes := by
  obtain ⟨xs, hb, ⟨hp, rfl⟩ | ⟨_, rfl⟩ | rfl⟩ := bytes_join (p := p) hq
  · simp [hp]
  · simp [hb]
  · simp [hb]

theorem length_le_join : p.bytes.length ≤ (p.join q).bytes.length := by
  obtain ⟨xs, hb, ⟨hp, rfl⟩ | ⟨_, rfl⟩ | rfl⟩ := bytes_join (p := p) hq
  · simp [hp]
  · simp [hb]
  · simp [hb]

theorem bytes_join_eq_nil_iff : (p.join q).bytes = [] ↔ p.bytes = [] ∧ q.bytes = [] := by
  unfold join
  simp only [hq, Bool.false_eq_true, ite_false]
  split
  · simp
  · next h => simp [(not_or.mp h).1]

theorem bytes_join_ne_nil (hp : p.bytes ≠ []) : (p.join q).bytes ≠ [] :=
  fun h => hp ((bytes_join_eq_nil_iff hq).mp h).1

end

end EclipseProject.Path
