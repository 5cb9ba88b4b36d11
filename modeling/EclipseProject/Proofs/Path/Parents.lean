import EclipseProject.Proofs.Path.Spelling
import Mathlib.Data.List.TakeWhile

/-!
# Parents of a path

A parent has the segments of the path up to the last that is not idle, without the idle ones before that. So it is
spelled with some of the bytes, in their order, and has fewer names. Which paths are above a path is a matter of
spelling only; no disk is looked at.
-/

namespace EclipseProject.Path

variable {p q r : Path} {n last first : Name} {ns ms kept before after : List Name}

/-! ## Names without dots -/

def undotted (ns : List Name) : List Name := ns.filter (· ≠ dot)

@[simp] theorem undotted_nil : undotted [] = [] := rfl

@[simp] theorem undotted_append : undotted (ms ++ ns) = undotted ms ++ undotted ns := List.filter_append ..

@[simp] theorem undotted_cons_dot : undotted (dot :: ns) = undotted ns := List.filter_cons_of_neg (by simp)

theorem undotted_cons (hn : n ≠ dot) : undotted (n :: ns) = n :: undotted ns := List.filter_cons_of_pos (by simpa using hn)

theorem undotted_concat (hn : n ≠ dot) : undotted (ns ++ [n]) = undotted ns ++ [n] := by
  rw [undotted_append, undotted_cons hn, undotted_nil]

theorem mem_undotted : n ∈ undotted ns ↔ n ∈ ns ∧ n ≠ dot := by simp [undotted]

/-! ## Segments -/

theorem not_idle (h : isIdle n = false) : n ≠ [] ∧ n ≠ dot := by simpa [isIdle] using h

theorem undotted_pieces_of_idle (h : ∀ n ∈ ns, isIdle n = true) : undotted (ns.filter (· ≠ [])) = [] := by
  rw [List.eq_nil_iff_forall_not_mem]
  intro n hn
  obtain ⟨hpiece, hdot⟩ := mem_undotted.mp hn
  obtain ⟨hmem, hne⟩ := List.mem_filter.mp hpiece
  have hidle : n = [] ∨ n = dot := by simpa [isIdle] using h n hmem
  have hsegment : n ≠ [] := of_decide_eq_true hne
  exact hidle.elim hsegment hdot

theorem pieces_eq_of_segments (h : p.segments = ns) : p.pieces = ns.filter (· ≠ []) := by rw [pieces, h]

theorem bytes_ne_nil_of_pieces (h : p.pieces ≠ []) : p.bytes ≠ [] := fun hb => h (by rw [pieces, segments, hb]; rfl)

theorem bytes_eq_of_segments (h : p.segments = ns) : p.bytes = [slash].intercalate ns := by
  rw [← h, segments, intercalate_split]

theorem isAbsolute_iff : p.isAbsolute = true ↔ ∃ ns, ns ≠ [] ∧ p.segments = [] :: ns := by
  unfold isAbsolute segments
  cases hb : p.bytes with
  | nil => simp [split]
  | cons b rest =>
    by_cases hslash : b = slash
    · simp [split, hslash, split_ne_nil]
    · obtain ⟨m, more, hs⟩ := List.exists_cons_of_ne_nil (split_ne_nil rest)
      simp [split_cons hslash hs, hslash]

/-! ## Where a path is cut -/

/-- What is left when the last segment that counts is taken away. A single first segment leaves the empty path. -/
inductive ParentOf : Path → Path → Prop
  | empty {p : Path} {first : Name} {rest : List Name} (hs : p.segments = first :: rest) (hne : first ≠ [])
      (hrest : ∀ n ∈ rest, isIdle n = true) : ParentOf ⟨[]⟩ p
  | root {p : Path} {last : Name} {before after : List Name} (hs : p.segments = [] :: (before ++ last :: after))
      (hbefore : ∀ n ∈ before, isIdle n = true) (hlast : isIdle last = false) (hafter : ∀ n ∈ after, isIdle n = true) :
      ParentOf ⟨[slash]⟩ p
  | kept {p : Path} {first last : Name} {kept before after : List Name}
      (hs : p.segments = first :: (kept ++ (before ++ last :: after))) (hne : first = [] → kept ≠ [])
      (hkept : ∀ n, kept.getLast? = some n → isIdle n = false)
      (hbefore : ∀ n ∈ before, isIdle n = true) (hlast : isIdle last = false) (hafter : ∀ n ∈ after, isIdle n = true) :
      ParentOf (ofSegments (first :: kept)) p

theorem isIdle_of_dropWhile {above : List Name} (h : ns.dropWhile isIdle = last :: above) : isIdle last = false := by
  have hlast := List.head_dropWhile_not (p := isIdle) (l := ns) (by simp [h])
  simpa [h] using hlast

theorem isIdle_of_takeWhile (h : n ∈ (ns.takeWhile isIdle).reverse) : isIdle n = true :=
  List.mem_takeWhile_imp (List.mem_reverse.mp h)

theorem eq_of_dropWhile {above : List Name} (h : ns.reverse.dropWhile isIdle = last :: above) :
    ns = (above.dropWhile isIdle).reverse ++
      ((above.takeWhile isIdle).reverse ++ last :: (ns.reverse.takeWhile isIdle).reverse) := by
  have hns : ns.reverse = ns.reverse.takeWhile isIdle ++ last :: above := by rw [← h, List.takeWhile_append_dropWhile]
  have habove : above = above.takeWhile isIdle ++ above.dropWhile isIdle := List.takeWhile_append_dropWhile.symm
  calc ns = ns.reverse.reverse := ns.reverse_reverse.symm
    _ = (ns.reverse.takeWhile isIdle ++ last :: (above.takeWhile isIdle ++ above.dropWhile isIdle)).reverse := by
      rw [← habove, ← hns]
    _ = _ := by simp only [List.reverse_append, List.reverse_cons, List.append_assoc, List.singleton_append]

theorem parentOf_of_parent? (h : p.parent? = some q) : ParentOf q p := by
  unfold parent? at h
  split at h
  · cases h
  next first rest hs =>
  split at h
  · next hdrop =>
    split at h
    · cases h
    next hne =>
    cases h
    have hrest : ∀ n ∈ rest, isIdle n = true := fun n hn =>
      List.dropWhile_eq_nil_iff.mp hdrop n (List.mem_reverse.mpr hn)
    exact .empty hs hne hrest
  · next last above hdrop =>
    have hcut := eq_of_dropWhile hdrop
    have hlast := isIdle_of_dropWhile hdrop
    dsimp only at h
    split at h
    · next hroot =>
      cases h
      rw [hroot.2, List.nil_append] at hcut
      rw [hroot.1, hcut] at hs
      exact .root hs (fun _ => isIdle_of_takeWhile) hlast (fun _ => isIdle_of_takeWhile)
    · next hroot =>
      cases h
      rw [hcut] at hs
      refine .kept hs (fun hf hk => hroot ⟨hf, hk⟩) (fun n hn => ?_) (fun _ => isIdle_of_takeWhile) hlast
        (fun _ => isIdle_of_takeWhile)
      rw [List.getLast?_reverse, List.head?_eq_some_iff] at hn
      obtain ⟨more, hmore⟩ := hn
      exact isIdle_of_dropWhile hmore

/-- Only idle segments are left without a parent. -/
theorem undotted_of_parent? (h : p.parent? = none) : undotted p.pieces = [] := by
  unfold parent? at h
  split at h
  · next hs => exact absurd hs (split_ne_nil p.bytes)
  next first rest hs =>
  split at h
  · next hdrop =>
    have hrest : ∀ n ∈ rest, isIdle n = true := fun n hn =>
      List.dropWhile_eq_nil_iff.mp hdrop n (List.mem_reverse.mpr hn)
    split at h
    · next hfirst =>
      rw [pieces_eq_of_segments hs, hfirst, List.filter_cons_of_neg (by simp)]
      exact undotted_pieces_of_idle hrest
    · cases h
  · dsimp only at h
    split at h <;> cases h

/-! ## What a parent is spelled with -/

theorem segments_ofSegments_of_subset (hne : ns ≠ []) (h : ns ⊆ p.segments) : (ofSegments ns).segments = ns :=
  split_intercalate hne fun _ hn => slash_notMem_of_split (h hn)

namespace ParentOf

theorem undotted_behind (hbefore : ∀ n ∈ before, isIdle n = true) (hlast : last ≠ dot)
    (hafter : ∀ n ∈ after, isIdle n = true) :
    undotted (before.filter (· ≠ []) ++ last :: after.filter (· ≠ [])) = [last] := by
  rw [undotted_append, undotted_cons hlast, undotted_pieces_of_idle hbefore, undotted_pieces_of_idle hafter]
  rfl

theorem kept_segments (hs : p.segments = first :: (kept ++ ms)) : (ofSegments (first :: kept)).segments = first :: kept :=
  segments_ofSegments_of_subset (p := p) (by simp) (hs ▸ List.cons_subset_cons _ (List.subset_append_left ..))

variable (h : ParentOf q p)
include h

/-- Behind the parent there is one name, or only dots if nothing is left. -/
theorem pieces_eq : ∃ rest, p.pieces = q.pieces ++ rest ∧ (undotted rest).length ≤ 1 ∧
    (q.bytes ≠ [] → ∃ n, undotted rest = [n]) := by
  cases h with
  | @empty _ first rest hs hne hrest =>
    have hpieces : p.pieces = [first] ++ rest.filter (· ≠ []) := by
      rw [pieces_eq_of_segments hs, List.filter_cons_of_pos (by simpa using hne)]
      rfl
    refine ⟨[first] ++ rest.filter (· ≠ []), hpieces, ?_, fun h => absurd rfl h⟩
    rw [undotted_append, undotted_pieces_of_idle hrest, List.append_nil]
    exact List.length_filter_le _ [first]
  | @root _ last before after hs hbefore hlast hafter =>
    obtain ⟨hne, hdot⟩ := not_idle hlast
    have hpieces : p.pieces = before.filter (· ≠ []) ++ last :: after.filter (· ≠ []) := by
      rw [pieces_eq_of_segments hs, List.filter_cons_of_neg (by simp), List.filter_append,
        List.filter_cons_of_pos (by simpa using hne)]
    have hname := undotted_behind hbefore hdot hafter
    have hone := congrArg List.length hname
    exact ⟨_, hpieces, Nat.le_of_eq hone, fun _ => ⟨last, hname⟩⟩
  | @kept _ first last kept before after hs _ _ hbefore hlast hafter =>
    obtain ⟨hne, hdot⟩ := not_idle hlast
    have hpieces : p.pieces = (ofSegments (first :: kept)).pieces ++
        (before.filter (· ≠ []) ++ last :: after.filter (· ≠ [])) := by
      rw [pieces_eq_of_segments hs, pieces_eq_of_segments (kept_segments hs), ← List.cons_append, List.filter_append,
        List.filter_append, List.filter_cons_of_pos (a := last) (by simpa using hne)]
    have hname := undotted_behind hbefore hdot hafter
    have hone := congrArg List.length hname
    exact ⟨_, hpieces, Nat.le_of_eq hone, fun _ => ⟨last, hname⟩⟩

theorem isAbsolute_eq (hq : q.bytes ≠ []) : q.isAbsolute = p.isAbsolute := by
  rw [Bool.eq_iff_iff]
  cases h with
  | empty => exact absurd rfl hq
  | root hs =>
    refine iff_of_true rfl (isAbsolute_iff.mpr ⟨_, ?_, hs⟩)
    simp
  | kept hs hne =>
    rw [isAbsolute_iff, isAbsolute_iff, hs, kept_segments hs]
    simpa using hne

theorem bytes_sublist : q.bytes.Sublist p.bytes := by
  cases h with
  | empty => exact List.nil_sublist _
  | root hs =>
    rw [bytes_eq_of_segments hs, List.intercalate_cons_of_ne_nil (by simp)]
    exact List.sublist_append_left ..
  | kept hs =>
    rw [bytes_eq_of_segments hs]
    exact intercalate_sublist ((List.sublist_append_left ..).cons_cons _)

theorem undotted_of_getLast? (hlast : q.pieces.getLast? = some dot) : undotted q.pieces = [] := by
  cases h with
  | empty => cases hlast
  | root => cases hlast
  | @kept _ first _ kept _ _ hs hne hkept =>
    rw [pieces_eq_of_segments (kept_segments hs)] at hlast ⊢
    rcases List.eq_nil_or_concat kept with rfl | ⟨more, k, rfl⟩
    · have hfirst : first ≠ [] := fun hf => hne hf rfl
      rw [List.filter_cons_of_pos (by simpa using hfirst)] at hlast ⊢
      rw [show first = dot from Option.some.inj hlast]
      rfl
    · obtain ⟨hk, hdot⟩ := not_idle (hkept k (by simp))
      rw [List.concat_eq_append, ← List.cons_append, List.filter_append,
        List.filter_cons_of_pos (a := k) (by simpa using hk), List.getLast?_append] at hlast
      exact absurd (Option.some.inj hlast) hdot

/-- More than one name at the end of the path is the way of the parent and one name more. -/
theorem exists_above {base rest : List Name} (hp : p.pieces = base ++ rest) (hrest : 1 < (undotted rest).length) :
    ∃ above n, q.pieces = base ++ above ∧ above <+: rest ∧ undotted rest = undotted above ++ [n] ∧
      above.getLast? ≠ some dot ∧ q.bytes ≠ [] := by
  obtain ⟨tail, htail, hone, hname⟩ := h.pieces_eq
  rw [hp] at htail
  obtain ⟨above, hq, rfl⟩ | ⟨more, _, rfl⟩ := List.append_eq_append_iff.mp htail
  · have hsome : undotted above ≠ [] := fun hnil => by
      rw [undotted_append, hnil, List.nil_append] at hrest
      omega
    have hbytes : q.bytes ≠ [] := bytes_ne_nil_of_pieces fun hnil => by
      rw [hq, List.append_eq_nil_iff] at hnil
      exact hsome (by rw [hnil.2]; rfl)
    obtain ⟨n, hn⟩ := hname hbytes
    refine ⟨above, n, hq, List.prefix_append .., by rw [undotted_append, hn], fun hlast => ?_, hbytes⟩
    have hdots := h.undotted_of_getLast? (by rw [hq, List.getLast?_append, hlast]; rfl)
    rw [hq, undotted_append, List.append_eq_nil_iff] at hdots
    exact hsome hdots.2
  · -- there are no more names than are behind the parent
    rw [undotted_append, List.length_append] at hone
    omega

end ParentOf

/-! ## All parents -/

/-- A path that goes the same way and stops at least a name before. -/
structure Leads (q p : Path) : Prop where
  isAbsolute : q.isAbsolute = p.isAbsolute
  bytes : q.bytes.Sublist p.bytes
  pieces : ∃ rest, p.pieces = q.pieces ++ rest ∧ undotted rest ≠ []

theorem Leads.trans (hr : Leads r q) (hq : Leads q p) : Leads r p := by
  obtain ⟨rest, hrest, hne⟩ := hr.pieces
  obtain ⟨more, hmore, _⟩ := hq.pieces
  refine ⟨hr.isAbsolute.trans hq.isAbsolute, hr.bytes.trans hq.bytes, rest ++ more, ?_, ?_⟩
  · rw [hmore, hrest, List.append_assoc]
  · rw [undotted_append]
    exact List.append_ne_nil_of_left_ne_nil hne _

theorem Leads.length_lt (h : Leads q p) : q.bytes.length < p.bytes.length := by
  refine Nat.lt_of_le_of_ne h.bytes.length_le fun hlength => ?_
  obtain ⟨rest, hrest, hne⟩ := h.pieces
  have hsame : q = p := congrArg Path.mk (h.bytes.eq_of_length hlength)
  rw [hsame, List.self_eq_append_right] at hrest
  exact hne (by rw [hrest]; rfl)

theorem leads_of_parent? (h : p.parent? = some q) (hq : q.bytes ≠ []) : Leads q p := by
  have hparent := parentOf_of_parent? h
  obtain ⟨rest, hpieces, _, hname⟩ := hparent.pieces_eq
  obtain ⟨n, hn⟩ := hname hq
  exact ⟨hparent.isAbsolute_eq hq, hparent.bytes_sublist, rest, hpieces, by simp [hn]⟩

/-- The parent, or a path above the parent. -/
inductive Above : Path → Path → Prop
  | parent {p q : Path} (h : p.parent? = some q) : Above q p
  | beyond {p q r : Path} (h : p.parent? = some q) (hr : Above r q) : Above r p

theorem Above.bytes_ne_nil (h : Above q p) : p.bytes ≠ [] := by
  intro hp
  have hnone : p.parent? = none := by rw [parent?, segments, hp]; rfl
  cases h with
  | parent h => simp [hnone] at h
  | beyond h => simp [hnone] at h

theorem leads_of_above (h : Above q p) (hq : q.bytes ≠ []) : Leads q p := by
  induction h with
  | parent h => exact leads_of_parent? h hq
  | beyond h hr ih => exact (ih hq).trans (leads_of_parent? h hr.bytes_ne_nil)

theorem above_of_mem_parents {k : Nat} (hr : r ∈ (match p.parent? with | none => [] | some q => lineageUpTo k q)) :
    Above r p := by
  induction k generalizing p with
  | zero => cases hp : p.parent? <;> simp [hp, lineageUpTo] at hr
  | succ k ih =>
    cases hp : p.parent? with
    | none => simp [hp] at hr
    | some q =>
      rw [hp] at hr
      rcases List.mem_cons.mp hr with rfl | hr
      · exact .parent hp
      · exact .beyond hp (ih hr)

end EclipseProject.Path
