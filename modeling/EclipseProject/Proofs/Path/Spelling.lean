import EclipseProject.Proofs.Path.Join
import EclipseProject.Proofs.Text.Utf8
import Mathlib.Data.List.Basic

/-!
# Names put together to a path again

What stands between slashes has no slash, so segments put together are split up as they were. The names of a path
spell a path that is no longer, in the same bytes.
-/

namespace EclipseProject.Path

variable {n : Name} {ns ms : List Name} {bytes : List UInt8}

/-! ## Segments -/

theorem slash_notMem_of_split (h : n ∈ split bytes) : slash ∉ n := by
  induction bytes generalizing n with
  | nil => simp_all [split]
  | cons b rest ih =>
    by_cases hb : b = slash
    · rw [split, if_pos hb] at h
      obtain rfl | h := List.mem_cons.mp h
      · simp
      · exact ih h
    · obtain ⟨m, more, hs⟩ := List.exists_cons_of_ne_nil (split_ne_nil rest)
      rw [split_cons hb hs] at h
      rw [hs] at ih
      obtain rfl | h := List.mem_cons.mp h
      · rw [List.mem_cons, not_or]
        exact ⟨Ne.symm hb, ih (List.mem_cons_self ..)⟩
      · exact ih (List.mem_cons_of_mem _ h)

theorem split_of_notMem (h : slash ∉ n) : split n = [n] := by
  induction n with
  | nil => rfl
  | cons b n ih =>
    rw [List.mem_cons, not_or] at h
    exact split_cons (Ne.symm h.1) (ih h.2)

theorem split_intercalate (hne : ns ≠ []) (h : ∀ n ∈ ns, slash ∉ n) : split ([slash].intercalate ns) = ns := by
  induction ns with
  | nil => exact absurd rfl hne
  | cons n ns ih =>
    have hn := split_of_notMem (h n (List.mem_cons_self ..))
    cases ns with
    | nil => rw [List.intercalate_singleton, hn]
    | cons m ns =>
      rw [List.intercalate_cons_cons, List.append_assoc, List.singleton_append, split_append_slash, hn,
        ih (by simp) (fun x hx => h x (List.mem_cons_of_mem _ hx)), List.singleton_append]

theorem intercalate_split (bytes : List UInt8) : [slash].intercalate (split bytes) = bytes := by
  induction bytes with
  | nil => rfl
  | cons b rest ih =>
    have hne := split_ne_nil rest
    by_cases hb : b = slash
    · rw [split, if_pos hb, List.intercalate_cons_of_ne_nil hne, ih, hb]
      rfl
    · obtain ⟨m, more, hs⟩ := List.exists_cons_of_ne_nil hne
      rw [split_cons hb hs]
      rw [hs] at ih
      cases more with
      | nil => simpa using ih
      | cons x more => simpa [List.intercalate_cons_cons] using ih

theorem intercalate_sublist (h : ns.Sublist ms) : ([slash].intercalate ns).Sublist ([slash].intercalate ms) := by
  induction h with
  | slnil => exact List.Sublist.refl _
  | @cons ns ms m h ih =>
    by_cases hms : ms = []
    · rw [hms] at h
      rw [List.eq_nil_of_sublist_nil h]
      exact List.nil_sublist _
    · rw [List.intercalate_cons_of_ne_nil hms]
      exact ih.trans (List.sublist_append_right ..)
  | @cons_cons ns ms m h ih =>
    by_cases hns : ns = []
    · rw [hns, List.intercalate_singleton]
      by_cases hms : ms = []
      · rw [hms, List.intercalate_singleton]
      · rw [List.intercalate_cons_of_ne_nil hms, List.append_assoc]
        exact List.sublist_append_left ..
    · have hms : ms ≠ [] := fun hms => hns (List.eq_nil_of_sublist_nil (hms ▸ h))
      rw [List.intercalate_cons_of_ne_nil hns, List.intercalate_cons_of_ne_nil hms]
      exact ih.append_left _

section
variable (hne : ns ≠ []) (h : ∀ n ∈ ns, n ≠ [] ∧ slash ∉ n)
include hne h

theorem segments_ofSegments : (ofSegments ns).segments = ns := split_intercalate hne fun n hn => (h n hn).2

theorem pieces_ofSegments : (ofSegments ns).pieces = ns := by
  rw [pieces, segments_ofSegments hne h]
  exact List.filter_eq_self.mpr fun n hn => decide_eq_true (h n hn).1

theorem bytes_ofSegments_ne_nil : (ofSegments ns).bytes ≠ [] := by
  intro hb
  have hs := segments_ofSegments hne h
  rw [segments, hb] at hs
  exact (h [] (hs ▸ List.mem_cons_self ..)).1 rfl

/-- There is a first segment and a last one, and neither is empty. -/
theorem isAbsolute_ofSegments : (ofSegments ns).isAbsolute = false := by
  have hs := segments_ofSegments hne h
  cases hb : (ofSegments ns).bytes with
  | nil => exact absurd hb (bytes_ofSegments_ne_nil hne h)
  | cons b rest =>
    have hslash : b ≠ slash := fun e => by
      rw [segments, hb, split, if_pos e] at hs
      exact (h [] (hs ▸ List.mem_cons_self ..)).1 rfl
    simp [isAbsolute, hb, hslash]

theorem endsInSlash_ofSegments : (ofSegments ns).endsInSlash = false := by
  refine Bool.eq_false_iff.mpr fun hslash => ?_
  obtain ⟨xs, hb⟩ := exists_of_endsInSlash hslash
  have hs := segments_ofSegments hne h
  rw [segments, hb, split_append_slash] at hs
  exact (h [] (hs ▸ List.mem_append_right _ (List.mem_cons_self ..))).1 rfl

end

/-! ## Paths of names -/

/-- Below no double dot, the names are what is left without the dots. -/
theorem names_eq_filter {q : Path} (hq : q.isAbsolute = false) (hdots : dotDot ∉ q.pieces) :
    q.names = q.pieces.filter (· ≠ dot) := by
  have hnames : q.names = q.pieces.filterMap fun n => (component? n).bind Component.name? := by
    rw [names, components, if_neg (Bool.eq_false_iff.mp hq), List.filterMap_append, ← List.filterMap_filterMap]
    split <;> simp [Component.name?]
  have hstep : ∀ n ∈ q.pieces, (component? n).bind Component.name? = Option.guard (· ≠ dot) n := fun n hn => by
    have hdotDot : n ≠ dotDot := fun e => hdots (e ▸ hn)
    by_cases hdot : n = dot <;> simp [component?, hdot, hdotDot, Option.guard, Component.name?]
  rw [hnames, ← List.filterMap_eq_filter]
  exact List.filterMap_congr hstep

/-- Only the empty path has no components. -/
theorem components_ne_nil {q : Path} (h : q.bytes ≠ []) : q.components ≠ [] := by
  unfold components
  by_cases habsolute : q.isAbsolute = true
  · simp [habsolute]
  rw [if_neg habsolute]
  obtain ⟨b, rest, hb⟩ := List.exists_cons_of_ne_nil h
  have hslash : b ≠ slash := by
    intro e
    simp [isAbsolute, hb, e] at habsolute
  obtain ⟨n, more, hs⟩ := List.exists_cons_of_ne_nil (split_ne_nil rest)
  have hpieces : q.pieces = (b :: n) :: more.filter (· ≠ []) := by
    rw [pieces, segments, hb, split_cons hslash hs, List.filter_cons_of_pos (by simp)]
  rw [hpieces]
  by_cases hdot : b :: n = dot
  · simp [hdot]
  · have hsome : (component? (b :: n)).isSome = true := by
      unfold component?
      rw [if_neg hdot]
      split <;> rfl
    obtain ⟨c, hc⟩ := Option.isSome_iff_exists.mp hsome
    simp [List.filterMap_cons_some hc]

/-- Relative, with no dot at its start nor a double dot. -/
def Normal (q : Path) : Prop := ∀ c ∈ q.components, ∃ n, c = .name n

instance (q : Path) : Decidable q.Normal :=
  decidable_of_iff (∀ c ∈ q.components, c.name?.isSome) <| forall₂_congr fun c _ => by
    cases c <;> simp [Component.name?]

section
variable {q : Path} (hq : q.Normal)
include hq

theorem Normal.relative : q.isAbsolute = false := by
  refine Bool.eq_false_iff.mpr fun h => ?_
  obtain ⟨n, hn⟩ := hq .root (by simp [components, h])
  cases hn

theorem Normal.dotDot_notMem : dotDot ∉ q.pieces := by
  intro h
  have hparent : component? dotDot = some .parent := by decide
  have hmem : .parent ∈ q.pieces.filterMap component? := List.mem_filterMap.mpr ⟨dotDot, h, hparent⟩
  obtain ⟨n, hn⟩ := hq .parent (by simp [components, hq.relative, hmem])
  cases hn

theorem Normal.names_eq : q.names = q.pieces.filter (· ≠ dot) := names_eq_filter hq.relative hq.dotDot_notMem

theorem Normal.components_eq : q.components = q.names.map .name := by
  unfold Normal at hq
  rw [names]
  generalize q.components = cs at hq
  induction cs with
  | nil => rfl
  | cons c cs ih =>
    obtain ⟨⟨n, rfl⟩, hcs⟩ := List.forall_mem_cons.mp hq
    have hname : (Component.name n).name? = some n := rfl
    rw [List.filterMap_cons_some hname, List.map_cons, ← ih hcs]

theorem Normal.names_ne_nil (h : q.components ≠ []) : q.names ≠ [] := by
  rw [hq.components_eq] at h
  exact fun hn => h (by rw [hn, List.map_nil])

theorem Normal.bytes_ne_nil (h : q.names ≠ []) : q.bytes ≠ [] := by
  intro hb
  rw [hq.names_eq, pieces, segments, hb] at h
  exact h rfl

end

/-- Normal, and each name is a text. -/
def Named (q : Path) : Prop := ∀ c ∈ q.components, ∃ s : String, c = .name (Utf8.encode s)

instance (q : Path) : Decidable q.Named :=
  decidable_of_iff (∀ c ∈ q.components, (c.name?.bind Utf8.decode?).isSome) <| forall₂_congr fun c _ => by
    cases c <;> simp [Component.name?, Option.isSome_iff_exists, Utf8.decode?_eq_some_iff]

section
variable {q : Path} (hq : q.Named)
include hq

theorem Named.normal : q.Normal := fun c hc => by
  obtain ⟨s, hs⟩ := hq c hc
  exact ⟨_, hs⟩

theorem Named.relative : q.isAbsolute = false := hq.normal.relative

theorem Named.names_eq : q.names = q.pieces.filter (· ≠ dot) := hq.normal.names_eq

theorem Named.names_ne_nil (h : q.components ≠ []) : q.names ≠ [] := hq.normal.names_ne_nil h

theorem Named.bytes_ne_nil (h : q.names ≠ []) : q.bytes ≠ [] := hq.normal.bytes_ne_nil h

theorem Named.encode_decode (h : n ∈ q.names) : Utf8.encode (Utf8.decode n) = n := by
  obtain ⟨c, hc, hn⟩ := List.mem_filterMap.mp h
  obtain ⟨s, rfl⟩ := hq c hc
  obtain rfl := Option.some.inj hn
  rw [Utf8.decode_encode]

theorem Named.segment (h : n ∈ q.names) : n ≠ [] ∧ slash ∉ n := by
  rw [hq.names_eq] at h
  obtain ⟨hn, hne⟩ := List.mem_filter.mp (List.mem_filter.mp h).1
  exact ⟨of_decide_eq_true hne, slash_notMem_of_split hn⟩

theorem Named.bytes_sublist (h : ns.Sublist q.names) : (ofSegments ns).bytes.Sublist q.bytes := by
  rw [hq.names_eq] at h
  have hns : ns.Sublist (split q.bytes) := h.trans (List.filter_sublist.trans List.filter_sublist)
  have hbytes := intercalate_sublist hns
  rwa [intercalate_split] at hbytes

end

/-- Below the same path, what has fewer bytes still has fewer. -/
theorem bytes_join_sublist {base p q : Path} (hp : p.isAbsolute = false) (hq : q.isAbsolute = false)
    (h : p.bytes.Sublist q.bytes) : (base.join p).bytes.Sublist (base.join q).bytes := by
  simp only [join, hp, hq, Bool.false_eq_true, ite_false]
  split
  · exact h.append_left _
  · exact (h.cons_cons slash).append_left _

end EclipseProject.Path
