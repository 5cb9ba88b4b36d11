import EclipseProject.Proofs.Path.Parents
import Mathlib.Logic.Relation

/-!
# When two paths are the same

Of a path counts whether it is absolute, whether a dot starts it, and which of its segments are names or double dots.
Repeated slashes, a dot behind a slash and a slash at the end may come and go.
-/

namespace EclipseProject.Path

variable {p q : Path} {ns ms : List Name}

/-- What a segment stands for that is neither empty nor a dot. -/
def componentOf (n : Name) : Component := if n = dotDot then .parent else .name n

/-- The component in front of all names and double dots, if there is one. -/
def lead (p : Path) : List Component :=
  if p.isAbsolute then [.root] else if p.segments.head? = some dot then [.current] else []

theorem componentOf_injective : Function.Injective componentOf := by
  intro m n h
  unfold componentOf at h
  split at h
  · next hm =>
    split at h
    · next hn => rw [hm, hn]
    · cases h
  · split at h
    · cases h
    · exact Component.name.inj h

theorem filterMap_component? (ns : List Name) : ns.filterMap component? = (undotted ns).map componentOf := by
  induction ns with
  | nil => rfl
  | cons n ns ih =>
    by_cases hn : n = dot
    · rw [hn, undotted_cons_dot, ← ih]
      rfl
    · have hsome : component? n = some (componentOf n) := by
        unfold component? componentOf
        rw [if_neg hn]
        split <;> rfl
      rw [undotted_cons hn, List.map_cons, ← ih, List.filterMap_cons_some hsome]

theorem head?_pieces (h : p.isAbsolute = false) : p.pieces.head? = some dot ↔ p.segments.head? = some dot := by
  unfold pieces segments
  cases hb : p.bytes with
  | nil => simp [split, dot]
  | cons b rest =>
    have hslash : b ≠ slash := by
      intro e
      simp [isAbsolute, hb, e] at h
    obtain ⟨n, more, hs⟩ := List.exists_cons_of_ne_nil (split_ne_nil rest)
    rw [split_cons hslash hs, List.filter_cons_of_pos (by simp), List.head?_cons, List.head?_cons]

theorem components_eq (p : Path) : p.components = p.lead ++ (undotted p.pieces).map componentOf := by
  unfold components lead
  by_cases h : p.isAbsolute = true
  · simp only [h, if_true, filterMap_component?, List.singleton_append]
  · simp only [h, filterMap_component?, head?_pieces (Bool.eq_false_iff.mpr h), Bool.false_eq_true, if_false]

theorem lead_eq_iff : p.lead = q.lead ↔ p.isAbsolute = q.isAbsolute ∧
    (p.segments.head? = some dot ↔ q.segments.head? = some dot) := by
  have hroot : ∀ {r : Path}, r.isAbsolute = true → r.segments.head? ≠ some dot := by
    intro r hr
    obtain ⟨ns, _, hs⟩ := isAbsolute_iff.mp hr
    rw [hs]
    simp [dot]
  unfold lead
  by_cases hp : p.isAbsolute = true
  · by_cases hq : q.isAbsolute = true
    · simp [hp, hq, hroot]
    · by_cases hdot : q.segments.head? = some dot <;> simp [hp, hq, hdot]
  · by_cases hq : q.isAbsolute = true
    · by_cases hdot : p.segments.head? = some dot <;> simp [hp, hq, hdot]
    · by_cases hdot : p.segments.head? = some dot <;> by_cases hdot' : q.segments.head? = some dot <;>
        simp [hp, hq, hdot, hdot']

/-- What leads is never what a name or a double dot stands for. -/
theorem lead_append_inj (h : p.lead ++ ns.map componentOf = q.lead ++ ms.map componentOf) :
    p.lead = q.lead ∧ ns = ms := by
  have hlead : ∀ r : Path, r.lead = [] ∨ r.lead = [.root] ∨ r.lead = [.current] := by
    intro r
    unfold lead
    split
    · exact Or.inr (Or.inl rfl)
    · split
      · exact Or.inr (Or.inr rfl)
      · exact Or.inl rfl
  have hne : ∀ n, componentOf n ≠ .root ∧ componentOf n ≠ .current := by
    intro n
    unfold componentOf
    split <;> simp
  have hmap : ∀ {ns ms : List Name}, ns.map componentOf = ms.map componentOf → ns = ms :=
    fun h => List.map_injective_iff.mpr componentOf_injective h
  rcases hlead p with hp | hp | hp <;> rcases hlead q with hq | hq | hq <;> rw [hp, hq] at h ⊢
  · exact ⟨rfl, hmap h⟩
  · cases ns <;> simp [hne] at h
  · cases ns <;> simp [hne] at h
  · cases ms <;> simp [(hne _).1.symm] at h
  · exact ⟨rfl, hmap (List.cons.inj h).2⟩
  · simp at h
  · cases ms <;> simp [(hne _).2.symm] at h
  · simp at h
  · exact ⟨rfl, hmap (List.cons.inj h).2⟩

theorem same_eq_true_iff : p.same q = true ↔ p.components = q.components := beq_iff_eq

/-- Two paths are the same if both or none are absolute, a dot starts both or none, and they have the same names and
double dots in the same order. -/
theorem same_iff : p.same q = true ↔ p.isAbsolute = q.isAbsolute ∧
    (p.segments.head? = some dot ↔ q.segments.head? = some dot) ∧ undotted p.pieces = undotted q.pieces := by
  rw [same_eq_true_iff, components_eq, components_eq, ← and_assoc, ← lead_eq_iff]
  constructor
  · exact lead_append_inj
  · rintro ⟨hlead, hnames⟩
    rw [hlead, hnames]

theorem names_eq_of_same (h : p.same q = true) : p.names = q.names := by
  rw [names, names, same_eq_true_iff.mp h]

theorem same_iff_of_normal (hp : p.Normal) (hq : q.Normal) : p.same q = true ↔ p.names = q.names := by
  have hinjective : Function.Injective Component.name := fun _ _ => Component.name.inj
  rw [same_eq_true_iff, hp.components_eq, hq.components_eq, (List.map_injective_iff.mpr hinjective).eq_iff]

/-! ## Other spellings -/

/-- One step from a spelling to another of the same path. -/
inductive Respelt : Path → Path → Prop
  | slashes (before after : List UInt8) : Respelt ⟨before ++ slash :: slash :: after⟩ ⟨before ++ slash :: after⟩
  | innerDot (before after : List UInt8) :
    Respelt ⟨before ++ slash :: (dot ++ slash :: after)⟩ ⟨before ++ slash :: after⟩
  | lastDot (before : List UInt8) : Respelt ⟨before ++ slash :: dot⟩ ⟨before ++ [slash]⟩
  | lastSlash (before : List UInt8) (h : before ≠ []) : Respelt ⟨before ++ [slash]⟩ ⟨before⟩

theorem head?_split_append (before after : List UInt8) :
    (split (before ++ slash :: after)).head? = (split before).head? := by
  obtain ⟨n, more, hs⟩ := List.exists_cons_of_ne_nil (split_ne_nil before)
  rw [split_append_slash, hs]
  rfl

theorem same_of_respelt (h : Respelt p q) : p.same q = true := by
  have hdot : split dot = [dot] := by decide
  rw [same_iff]
  cases h with
  | slashes before after =>
    refine ⟨?_, ?_, ?_⟩
    · cases before <;> rfl
    · simp only [segments, head?_split_append]
    · simp [pieces, segments, split_append_slash, split]
  | innerDot before after =>
    refine ⟨?_, ?_, ?_⟩
    · cases before <;> rfl
    · simp only [segments, head?_split_append]
    · simp [pieces, segments, split_append_slash, hdot, undotted_cons_dot, show dot ≠ [] by decide]
  | lastDot before =>
    refine ⟨?_, ?_, ?_⟩
    · cases before <;> rfl
    · simp only [segments, head?_split_append]
    · simp [pieces, segments, split_append_slash, split, hdot, show dot ≠ [] by decide]
  | lastSlash before hne =>
    refine ⟨?_, ?_, ?_⟩
    · obtain ⟨b, bs, rfl⟩ := List.exists_cons_of_ne_nil hne
      rfl
    · simp only [segments, head?_split_append]
    · simp [pieces, segments, split_append_slash, split]

theorem respelt_intercalate {n : Name} (hn : n ≠ []) (before : List UInt8) (ns : List Name) :
    Relation.EqvGen Respelt ⟨before ++ (n ++ slash :: [slash].intercalate ns)⟩ ⟨before ++ [slash].intercalate (n :: ns)⟩ := by
  by_cases hns : ns = []
  · subst hns
    have hlast := Respelt.lastSlash (before ++ n) (by simp [hn])
    rw [List.append_assoc] at hlast
    rw [List.intercalate_nil, List.intercalate_singleton]
    exact .rel _ _ hlast
  · rw [List.intercalate_cons_of_ne_nil hns, List.append_assoc]
    exact .refl _

/-- Behind a slash the idle segments can go, one after the other. -/
theorem respelt_behind (before : List UInt8) (ns : List Name) :
    Relation.EqvGen Respelt ⟨before ++ slash :: [slash].intercalate ns⟩
      ⟨before ++ slash :: [slash].intercalate (undotted (ns.filter (· ≠ [])))⟩ := by
  induction ns generalizing before with
  | nil => exact .refl _
  | cons n ns ih =>
    by_cases hns : ns = []
    · subst hns
      by_cases hempty : n = []
      · subst hempty
        exact .refl _
      · by_cases hdot : n = dot
        · subst hdot
          exact .rel _ _ (.lastDot before)
        · rw [List.filter_cons_of_pos (by simpa using hempty), undotted_cons hdot]
          exact .refl _
    rw [List.intercalate_cons_of_ne_nil hns]
    by_cases hempty : n = []
    · subst hempty
      rw [List.filter_cons_of_neg (by simp)]
      exact (Relation.EqvGen.rel _ _ (.slashes before _)).trans _ _ _ (ih before)
    rw [List.filter_cons_of_pos (by simpa using hempty)]
    by_cases hdot : n = dot
    · subst hdot
      rw [undotted_cons_dot, List.append_assoc]
      exact (Relation.EqvGen.rel _ _ (.innerDot before _)).trans _ _ _ (ih before)
    · have hbehind := ih (before ++ slash :: n)
      have hclosed := respelt_intercalate hempty (before ++ [slash]) (undotted (ns.filter (· ≠ [])))
      rw [undotted_cons hdot]
      simp only [List.append_assoc, List.cons_append, List.nil_append] at hbehind hclosed ⊢
      exact hbehind.trans _ _ _ hclosed

/-- The shortest spelling. -/
def shortest (p : Path) : Path :=
  if p.isAbsolute then ⟨slash :: [slash].intercalate (undotted p.pieces)⟩
  else ofSegments ((if p.segments.head? = some dot then [dot] else []) ++ undotted p.pieces)

theorem respelt_shortest (p : Path) : Relation.EqvGen Respelt p p.shortest := by
  obtain ⟨first, rest, hsplit⟩ := List.exists_cons_of_ne_nil (split_ne_nil p.bytes)
  have hs : p.segments = first :: rest := hsplit
  have hp : p = ⟨[slash].intercalate (first :: rest)⟩ := congrArg Path.mk (bytes_eq_of_segments hs)
  have hpieces : p.pieces = (first :: rest).filter (· ≠ []) := pieces_eq_of_segments hs
  have hbehind := respelt_behind first rest
  have habsolute : p.isAbsolute = true ↔ first = [] ∧ rest ≠ [] := by
    rw [isAbsolute_iff, hs]
    simp [and_comm]
  unfold shortest
  rw [hs, hpieces]
  nth_rewrite 1 [hp]
  by_cases hfirst : first = []
  · subst hfirst
    rw [List.filter_cons_of_neg (by simp)]
    by_cases hrest : rest = []
    · rw [if_neg (by simp [habsolute, hrest]), hrest]
      exact .refl _
    · rw [if_pos (habsolute.mpr ⟨rfl, hrest⟩), List.intercalate_cons_of_ne_nil hrest]
      exact hbehind
  · have hkept : (if (first :: rest).head? = some dot then [dot] else []) ++
        undotted ((first :: rest).filter (· ≠ [])) = first :: undotted (rest.filter (· ≠ [])) := by
      rw [List.filter_cons_of_pos (by simpa using hfirst)]
      by_cases hdot : first = dot
      · simp [hdot]
      · simp [hdot, undotted_cons hdot]
    rw [if_neg (by simp [habsolute, hfirst]), hkept, ofSegments]
    by_cases hrest : rest = []
    · rw [hrest]
      exact .refl _
    · rw [List.intercalate_cons_of_ne_nil hrest, List.append_assoc]
      exact hbehind.trans _ _ _ (respelt_intercalate hfirst [] _)

/-- Two paths are the same exactly if one spelling leads to the other step by step. -/
theorem same_iff_respelt : p.same q = true ↔ Relation.EqvGen Respelt p q := by
  constructor
  · intro h
    obtain ⟨habsolute, hdot, hnames⟩ := same_iff.mp h
    have hshortest : p.shortest = q.shortest := by
      unfold shortest
      simp only [habsolute, hdot, hnames]
    exact (hshortest ▸ respelt_shortest p).trans _ _ _ (respelt_shortest q).symm
  · intro h
    induction h with
    | rel p q h => exact same_of_respelt h
    | refl p => exact same_eq_true_iff.mpr rfl
    | symm p q _ ih => exact same_eq_true_iff.mpr (same_eq_true_iff.mp ih).symm
    | trans p q r _ _ ih ih' => exact same_eq_true_iff.mpr ((same_eq_true_iff.mp ih).trans (same_eq_true_iff.mp ih'))

end EclipseProject.Path
