import EclipseProject.Staging.Tree
import Mathlib.Data.List.Nodup

/-!
# The tree of a record is the trie of its paths

A node stands for what the entries say below one path. `Represents` says this of a node and of all nodes below it,
and an insertion keeps it with one more entry. Which nodes there are, in which order and of which kind, is then read
off at each path.
-/

namespace EclipseProject.Staging

/-! ## Nodes and their paths -/

namespace Tree

def kind : Tree → Kind
  | .node _ k _ => k

def label (t : Tree) : String × Kind := (t.name, t.kind)

def children : Tree → List Tree
  | .node _ _ ts => ts

mutual

/-- All nodes, each with the names that lead to it from the root. The root comes first, with no name. -/
def nodes : Tree → List (List String × Tree)
  | .node n k ts => ([], .node n k ts) :: childNodes ts

def childNodes : List Tree → List (List String × Tree)
  | [] => []
  | t :: ts => t.nodes.map (fun x => (t.name :: x.1, x.2)) ++ childNodes ts

end

def paths (t : Tree) : List (List String) := t.nodes.map Prod.fst

variable {t x : Tree} {ts : List Tree} {s : String} {p : List String} {k : Kind} {f : Tree → Tree}

theorem childNodes_eq (ts : List Tree) :
    childNodes ts = ts.flatMap fun t => t.nodes.map fun x => (t.name :: x.1, x.2) := by
  induction ts with
  | nil => rfl
  | cons t ts ih => rw [childNodes, ih, List.flatMap_cons]

theorem mem_childNodes_cons : (s :: p, x) ∈ childNodes ts ↔ ∃ t ∈ ts, t.name = s ∧ (p, x) ∈ t.nodes := by
  rw [childNodes_eq]
  simp only [List.mem_flatMap, List.mem_map, Prod.mk.injEq, List.cons.injEq]
  constructor
  · rintro ⟨t, ht, ⟨q, y⟩, hy, ⟨hs, rfl⟩, rfl⟩
    exact ⟨t, ht, hs, hy⟩
  · rintro ⟨t, ht, hs, hx⟩
    exact ⟨t, ht, (p, x), hx, ⟨hs, rfl⟩, rfl⟩

theorem nil_notMem_childNodes : ([], x) ∉ childNodes ts := by
  rw [childNodes_eq]
  simp

theorem mem_nodes_nil : ([], x) ∈ t.nodes ↔ x = t := by
  cases t with
  | node n k ts => simp [nodes, nil_notMem_childNodes]

theorem mem_nodes_cons : (s :: p, x) ∈ t.nodes ↔ ∃ c ∈ t.children, c.name = s ∧ (p, x) ∈ c.nodes := by
  cases t with
  | node n k ts => simp [nodes, mem_childNodes_cons, children]

theorem mem_paths : p ∈ t.paths ↔ ∃ x, (p, x) ∈ t.nodes := by
  simp [paths]

/-- Children of different names have no path in common. -/
theorem nodup_paths_node {n : String} (hn : (ts.map name).Nodup) (hts : ∀ t ∈ ts, t.paths.Nodup) :
    (node n k ts).paths.Nodup := by
  have hpaths : (childNodes ts).map Prod.fst = ts.flatMap fun t => t.paths.map (t.name :: ·) := by
    rw [childNodes_eq, List.map_flatMap]
    simp [paths, Function.comp_def]
  rw [paths, nodes, List.map_cons, List.nodup_cons, hpaths]
  refine ⟨by simp, List.nodup_flatMap.mpr ⟨fun t ht => (hts t ht).map (List.cons_injective), ?_⟩⟩
  refine (List.pairwise_map.mp hn).imp fun {a b} hab => ?_
  simp only [Function.onFun, List.Disjoint, List.mem_map]
  rintro _ ⟨q, _, rfl⟩ ⟨q', _, hq⟩
  exact hab (List.cons.inj hq).1.symm

/-! ## Insertion -/

@[simp] theorem insert_nil : t.insert k [] = t := by
  cases t
  rfl

@[simp] theorem label_insert (segments : List String) (t : Tree) : (t.insert k segments).label = t.label := by
  cases t
  cases segments <;> rfl

/-- A change that leaves name and kind alone is not seen among the children; a new one comes last. -/
theorem labels_changeNamed (hf : ∀ t, (f t).label = t.label) (s : String) (new : Tree) (ts : List Tree) :
    (changeNamed s f new ts).map label =
      if s ∈ ts.map name then ts.map label else ts.map label ++ [new.label] := by
  induction ts with
  | nil => simp [changeNamed, hf]
  | cons t ts ih =>
    by_cases h : t.name = s
    · simp [changeNamed, h, hf]
    · rw [changeNamed, if_neg h, List.map_cons, ih]
      have hs : s ∈ (t :: ts).map name ↔ s ∈ ts.map name := by simp [Ne.symm h]
      simp only [hs]
      split <;> rfl

theorem mem_changeNamed {new c : Tree} (hn : (ts.map name).Nodup) (h : c ∈ changeNamed s f new ts) :
    (c ∈ ts ∧ c.name ≠ s) ∨ (∃ t ∈ ts, t.name = s ∧ c = f t) ∨ (c = f new ∧ s ∉ ts.map name) := by
  induction ts with
  | nil => exact Or.inr (Or.inr ⟨by simpa [changeNamed] using h, by simp⟩)
  | cons t ts ih =>
    rw [List.map_cons, List.nodup_cons] at hn
    by_cases ht : t.name = s
    · rw [changeNamed, if_pos ht] at h
      obtain rfl | hc := List.mem_cons.mp h
      · exact Or.inr (Or.inl ⟨t, by simp, ht, rfl⟩)
      · refine Or.inl ⟨by simp [hc], fun hcs => hn.1 ?_⟩
        rw [ht, ← hcs]
        exact List.mem_map_of_mem hc
    · rw [changeNamed, if_neg ht] at h
      obtain rfl | hc := List.mem_cons.mp h
      · exact Or.inl ⟨by simp, ht⟩
      · obtain ⟨hts, hne⟩ | ⟨t', ht', hs⟩ | ⟨hnew, hs⟩ := ih hn.2 hc
        · exact Or.inl ⟨by simp [hts], hne⟩
        · exact Or.inr (Or.inl ⟨t', by simp [ht'], hs⟩)
        · exact Or.inr (Or.inr ⟨hnew, by simpa [Ne.symm ht] using hs⟩)

theorem changeNamed_eq_self {new c : Tree} (hn : (ts.map name).Nodup) (hc : c ∈ ts) (hs : c.name = s) (h : f c = c) :
    changeNamed s f new ts = ts := by
  induction ts with
  | nil => cases hc
  | cons t ts ih =>
    rw [List.map_cons, List.nodup_cons] at hn
    obtain rfl | hc := List.mem_cons.mp hc
    · rw [changeNamed, if_pos hs, h]
    · have ht : t.name ≠ s := fun ht => hn.1 (ht ▸ hs ▸ List.mem_map_of_mem hc)
      rw [changeNamed, if_neg ht, ih hn.2 hc]

end Tree

/-! ## Marks -/

/-- What an entry says of a node above it: the way that leads on from there, and what is at its end. -/
abbrev Mark := List String × Kind

def Entry.mark (e : Entry) : Mark := (e.segments, e.kind)

namespace Mark

variable {ms : List Mark} {m : Mark} {s : String} {p q : List String} {k : Kind}

def after? (s : String) : Mark → Option Mark
  | ([], _) => none
  | (r :: rest, k) => if r = s then some (rest, k) else none

/-- What the marks say below the child of that name. -/
def under (s : String) (ms : List Mark) : List Mark := ms.filterMap (after? s)

def first? (ms : List Mark) (p : List String) : Option Mark := ms.find? fun m => p <+: m.1

/-- How many marks there are before the first one on or below the path. -/
def position (ms : List Mark) (p : List String) : Nat := ms.findIdx fun m => p <+: m.1

def Known (ms : List Mark) (p : List String) : Prop := ∃ m ∈ ms, p <+: m.1

theorem after?_eq_some_iff {m' : Mark} : after? s m = some m' ↔ m = (s :: m'.1, m'.2) := by
  obtain ⟨segments, k⟩ := m
  obtain ⟨rest, k'⟩ := m'
  cases segments with
  | nil => simp [after?]
  | cons r segments =>
    by_cases hr : r = s <;> simp [after?, hr]

theorem any_after? (s : String) (p : List String) (m : Mark) :
    ((after? s m).any fun m => p <+: m.1) = decide (s :: p <+: m.1) := by
  obtain ⟨segments, k⟩ := m
  cases segments with
  | nil => simp [after?]
  | cons r segments =>
    by_cases hr : r = s
    · simp [after?, hr]
    · simp [after?, hr, Ne.symm hr]

theorem known_under_iff : Known (under s ms) p ↔ Known ms (s :: p) := by
  simp only [Known, under, List.mem_filterMap, after?_eq_some_iff]
  constructor
  · rintro ⟨m, ⟨_, hm, rfl⟩, hp⟩
    exact ⟨_, hm, by simpa using hp⟩
  · rintro ⟨⟨segments, k⟩, hm, rest, rfl⟩
    exact ⟨(p ++ rest, k), ⟨_, hm, rfl⟩, List.prefix_append ..⟩

theorem first?_under : first? (under s ms) p = (first? ms (s :: p)).bind (after? s) := by
  rw [first?, under, List.find?_filterMap]
  simp only [any_after?, first?]

theorem first?_under_eq_some_iff : first? (under s ms) p = some (q, k) ↔ first? ms (s :: p) = some (s :: q, k) := by
  rw [first?_under, Option.bind_eq_some_iff]
  simp only [after?_eq_some_iff]
  simp

theorem position_cons : position (m :: ms) p = if p <+: m.1 then 0 else position ms p + 1 := by
  by_cases h : p <+: m.1 <;> simp [position, List.findIdx_cons, h]

/-- What comes first below a child comes first among all marks. -/
theorem position_lt_of_under (h : position (under s ms) p < position (under s ms) q) :
    position ms (s :: p) < position ms (s :: q) := by
  induction ms with
  | nil => exact h
  | cons m ms ih =>
    rw [position_cons, position_cons]
    cases hm : after? s m with
    | none =>
      have hno (p : List String) : ¬ s :: p <+: m.1 := by simpa [hm] using any_after? s p m
      have hunder : under s (m :: ms) = under s ms := List.filterMap_cons_none hm
      rw [hunder] at h
      rw [if_neg (hno p), if_neg (hno q)]
      exact Nat.succ_lt_succ (ih h)
    | some m' =>
      have hiff (p : List String) : p <+: m'.1 ↔ s :: p <+: m.1 := by simpa [hm] using any_after? s p m
      have hunder : under s (m :: ms) = m' :: under s ms := List.filterMap_cons_some hm
      rw [hunder, position_cons, position_cons] at h
      simp only [hiff] at h
      by_cases hq : s :: q <+: m.1
      · simp [hq] at h
      · by_cases hp : s :: p <+: m.1
        · simp [hp, hq]
        · simp only [hp, hq, ite_false] at h ⊢
          exact Nat.succ_lt_succ (ih (Nat.lt_of_succ_lt_succ h))

/-! ### One mark more -/

theorem known_append_iff : Known (ms ++ [m]) p ↔ Known ms p ∨ p <+: m.1 := by
  simp [Known, or_and_right, exists_or]

theorem first?_append (h : Known ms p) : first? (ms ++ [m]) p = first? ms p := by
  obtain ⟨m', hm', hp⟩ := h
  have hsome : (ms.find? fun m => p <+: m.1).isSome := List.find?_isSome.mpr ⟨m', hm', by simpa using hp⟩
  rw [first?, List.find?_append, Option.or_of_isSome hsome, first?]

theorem first?_append_of_new (h : ¬ Known ms p) (hp : p <+: m.1) : first? (ms ++ [m]) p = some m := by
  have hnone : (ms.find? fun m => p <+: m.1) = none :=
    List.find?_eq_none.mpr fun m' hm' hp' => h ⟨m', hm', by simpa using hp'⟩
  simp [first?, List.find?_append, hnone, hp]

theorem position_lt (h : Known ms p) : position ms p < ms.length := by
  obtain ⟨m', hm', hp⟩ := h
  exact List.findIdx_lt_length_of_exists ⟨m', hm', by simpa using hp⟩

theorem position_append (h : Known ms p) : position (ms ++ [m]) p = position ms p := by
  exact List.findIdx_append.trans (if_pos (position_lt h))

theorem position_append_of_new (h : ¬ Known ms p) (hp : p <+: m.1) : position (ms ++ [m]) p = ms.length := by
  have hlength : (ms.findIdx fun m => p <+: m.1) = ms.length :=
    List.findIdx_eq_length.mpr fun m' hm' => by simpa using fun hp' => h ⟨m', hm', hp'⟩
  simp [position, List.findIdx_append, hlength, List.findIdx_cons, hp]

theorem under_append : under s (ms ++ [m]) = under s ms ++ (after? s m).toList := by
  rw [under, List.filterMap_append]
  cases h : after? s m <;> simp [under, h]

theorem under_append_of_ne {r : String} {rest : List String} (h : r ≠ s) :
    under s (ms ++ [(r :: rest, k)]) = under s ms := by
  simp [under_append, after?, h]

theorem under_eq_nil (h : ¬ Known ms [s]) : under s ms = [] := by
  refine List.eq_nil_iff_forall_not_mem.mpr fun m hm => h ?_
  exact known_under_iff.mp ⟨m, hm, List.nil_prefix⟩

end Mark

/-! ## What a node represents -/

/-- The labels are the names with which the marks go on, in the order in which they come first. The first mark with a
name decides whether it is that of a file. -/
structure Siblings (ms : List Mark) (labels : List (String × Kind)) : Prop where
  known : ∀ s, s ∈ labels.map Prod.fst ↔ Mark.Known ms [s]
  ordered : (labels.map Prod.fst).Pairwise fun s s' => Mark.position ms [s] < Mark.position ms [s']
  kinds : ∀ l ∈ labels, l.2 = .file ↔ Mark.first? ms [l.1] = some ([l.1], .file)

namespace Siblings

open Mark

variable {ms : List Mark} {m : Mark} {labels : List (String × Kind)} {s : String} {rest : List String} {k : Kind}

theorem nodup (h : Siblings ms labels) : (labels.map Prod.fst).Nodup := by
  refine h.ordered.imp ?_
  rintro s _ hlt rfl
  exact Nat.lt_irrefl _ hlt

theorem ordered_append (h : Siblings ms labels) (m : Mark) :
    (labels.map Prod.fst).Pairwise fun s s' => position (ms ++ [m]) [s] < position (ms ++ [m]) [s'] :=
  h.ordered.imp_of_mem fun {s s'} hs hs' hlt => by
    rwa [position_append ((h.known s).mp hs), position_append ((h.known s').mp hs')]

theorem kinds_append (h : Siblings ms labels) (m : Mark) :
    ∀ l ∈ labels, l.2 = .file ↔ first? (ms ++ [m]) [l.1] = some ([l.1], .file) := fun l hl => by
  rw [first?_append ((h.known l.1).mp (List.mem_map_of_mem hl)), h.kinds l hl]

/-- A mark that starts no new name leaves the labels as they are. -/
theorem append (h : Siblings ms labels) (hm : ∀ s, [s] <+: m.1 → Known ms [s]) : Siblings (ms ++ [m]) labels := by
  refine ⟨fun s => ?_, h.ordered_append m, h.kinds_append m⟩
  rw [h.known, known_append_iff]
  exact ⟨Or.inl, fun hs => hs.elim id (hm s)⟩

theorem append_new (h : Siblings ms labels) (hs : ¬ Known ms [s]) :
    Siblings (ms ++ [(s :: rest, k)]) (labels ++ [(s, if rest = [] then k else .directory)]) := by
  refine ⟨fun r => ?_, ?_, fun l hl => ?_⟩
  · rw [known_append_iff, List.map_append, List.mem_append, h.known]
    simp
  · rw [List.map_append, List.pairwise_append]
    refine ⟨h.ordered_append _, by simp, fun r hr s' hs' => ?_⟩
    have hknown := (h.known r).mp hr
    obtain rfl : s' = s := by simpa using hs'
    rw [position_append hknown, position_append_of_new hs (by simp)]
    exact position_lt hknown
  · obtain hl | hl := List.mem_append.mp hl
    · exact h.kinds_append _ l hl
    · obtain rfl := List.mem_singleton.mp hl
      rw [first?_append_of_new hs (by simp)]
      by_cases hrest : rest = [] <;> simp [hrest]

end Siblings

namespace Tree

open Mark

variable {t x c : Tree} {ts : List Tree} {ms : List Mark} {m : Mark} {s n : String} {p : List String} {k : Kind}

inductive Represents : List Mark → Tree → Prop
  | node {ms : List Mark} {n : String} {k : Kind} {ts : List Tree} (siblings : Siblings ms (ts.map label))
      (below : ∀ t ∈ ts, Represents (under t.name ms) t) : Represents ms (.node n k ts)

theorem represents_leaf : Represents [] (.node n k []) :=
  .node ⟨fun s => by simp [Known], .nil, by simp⟩ (by simp)

theorem Represents.siblings (h : Represents ms t) : Siblings ms (t.children.map label) := by
  cases h
  assumption

theorem Represents.child (h : Represents ms t) : ∀ c ∈ t.children, Represents (under c.name ms) c := by
  cases h
  assumption

theorem map_name (ts : List Tree) : (ts.map label).map Prod.fst = ts.map name := by
  simp [label, Function.comp_def]

/-- **An insertion adds its mark.** -/
theorem represents_insert (h : Represents ms t) (segments : List String) (k : Kind) :
    Represents (ms ++ [(segments, k)]) (t.insert k segments) := by
  induction segments generalizing ms t with
  | nil =>
    rw [insert_nil]
    cases h with
    | node siblings below =>
      refine .node (siblings.append (by simp)) fun t ht => ?_
      simpa [under_append, after?] using below t ht
  | cons s rest ih =>
    cases h with
    | @node _ n k₀ ts siblings below =>
      have hn : (ts.map name).Nodup := map_name ts ▸ siblings.nodup
      have hknown : s ∈ ts.map name ↔ Known ms [s] := map_name ts ▸ siblings.known s
      have hunder : under s (ms ++ [(s :: rest, k)]) = under s ms ++ [(rest, k)] := by simp [under_append, after?]
      refine .node ?_ fun c hc => ?_
      · rw [labels_changeNamed (label_insert rest)]
        split
        · next hs =>
          refine siblings.append fun r hr => ?_
          obtain rfl : r = s := by simpa using hr
          exact hknown.mp hs
        · next hs => exact siblings.append_new (fun h => hs (hknown.mpr h))
      · obtain ⟨hc, hne⟩ | ⟨t, ht, rfl, rfl⟩ | ⟨rfl, hs⟩ := mem_changeNamed hn hc
        · rw [under_append_of_ne hne.symm]
          exact below c hc
        · have hname : (t.insert k rest).name = t.name := congrArg Prod.fst (label_insert rest t)
          rw [hname, hunder]
          exact ih (below t ht)
        · -- there was nothing below the name
          have hname : (insert k rest (.node s (if rest = [] then k else .directory) [])).name = s :=
            congrArg Prod.fst (label_insert rest _)
          rw [hname, hunder, under_eq_nil (fun h => hs (hknown.mpr h))]
          exact ih represents_leaf

/-! ## At each path -/

/-- The marks on and below a path, from there. -/
def marksAt : List String → List Mark → List Mark
  | [], ms => ms
  | s :: p, ms => marksAt p (under s ms)

theorem Represents.at (h : Represents ms t) (hx : (p, x) ∈ t.nodes) : Represents (marksAt p ms) x := by
  induction p generalizing ms t with
  | nil =>
    obtain rfl := mem_nodes_nil.mp hx
    exact h
  | cons s p ih =>
    obtain ⟨c, hc, rfl, hrest⟩ := mem_nodes_cons.mp hx
    exact ih (h.child c hc) hrest

theorem Represents.nodup_paths (h : Represents ms t) : t.paths.Nodup := by
  induction h with
  | node siblings below ih => exact nodup_paths_node (map_name _ ▸ siblings.nodup) ih

theorem Represents.mem_paths_iff (h : Represents ms t) (hp : p ≠ []) : p ∈ t.paths ↔ Known ms p := by
  induction p generalizing ms t with
  | nil => exact absurd rfl hp
  | cons s p ih =>
    have hknown : s ∈ t.children.map name ↔ Known ms [s] := map_name t.children ▸ h.siblings.known s
    have hchild : (∃ x, (s :: p, x) ∈ t.nodes) ↔ ∃ c ∈ t.children, c.name = s ∧ p ∈ c.paths := by
      simp only [mem_nodes_cons, mem_paths]
      constructor
      · rintro ⟨x, c, hc, hs, hx⟩
        exact ⟨c, hc, hs, x, hx⟩
      · rintro ⟨c, hc, hs, x, hx⟩
        exact ⟨x, c, hc, hs, hx⟩
    rw [mem_paths, hchild]
    by_cases hempty : p = []
    · subst hempty
      have hroot (c : Tree) : [] ∈ c.paths := mem_paths.mpr ⟨c, mem_nodes_nil.mpr rfl⟩
      simpa [hroot] using hknown
    · rw [← known_under_iff]
      constructor
      · rintro ⟨c, hc, rfl, hx⟩
        exact (ih (h.child c hc) hempty).mp hx
      · intro hs
        have hfirst : Known ms [s] := by
          obtain ⟨m, hm, hbelow⟩ := known_under_iff.mp hs
          exact ⟨m, hm, List.IsPrefix.trans (by simp) hbelow⟩
        obtain ⟨c, hc, rfl⟩ := List.mem_map.mp (hknown.mpr hfirst)
        exact ⟨c, hc, rfl, (ih (h.child c hc) hempty).mpr hs⟩

theorem Represents.kind_iff (h : Represents ms t) (hp : p ≠ []) (hx : (p, x) ∈ t.nodes) :
    x.kind = .file ↔ first? ms p = some (p, .file) := by
  induction p generalizing ms t with
  | nil => exact absurd rfl hp
  | cons s p ih =>
    obtain ⟨c, hc, rfl, hrest⟩ := mem_nodes_cons.mp hx
    by_cases hempty : p = []
    · subst hempty
      obtain rfl := mem_nodes_nil.mp hrest
      exact h.siblings.kinds x.label (List.mem_map_of_mem hc)
    · rw [ih (h.child c hc) hempty hrest, first?_under_eq_some_iff]

theorem position_lt_of_marksAt {q q' : List String} (h : position (marksAt p ms) q < position (marksAt p ms) q') :
    position ms (p ++ q) < position ms (p ++ q') := by
  induction p generalizing ms with
  | nil => exact h
  | cons s p ih => exact position_lt_of_under (ih h)

theorem Represents.ordered (h : Represents ms t) (hx : (p, x) ∈ t.nodes) :
    (x.children.map name).Pairwise fun s s' => position ms (p ++ [s]) < position ms (p ++ [s']) :=
  (map_name x.children ▸ (h.at hx).siblings.ordered).imp position_lt_of_marksAt

/-- Where a path leads to a node, an insertion along it finds everything there. -/
theorem Represents.insert_eq_self (h : Represents ms t) (hp : p ∈ t.paths) (k : Kind) : t.insert k p = t := by
  induction p generalizing ms t with
  | nil => exact insert_nil
  | cons s p ih =>
    obtain ⟨x, hx⟩ := mem_paths.mp hp
    obtain ⟨c, hc, hs, hrest⟩ := mem_nodes_cons.mp hx
    have hself := ih (h.child c hc) (mem_paths.mpr ⟨x, hrest⟩)
    cases h with
    | node siblings below =>
      exact congrArg (Tree.node _ _) (changeNamed_eq_self (map_name _ ▸ siblings.nodup) hc hs hself)

end Tree

/-! ## The tree of a record -/

namespace Record

/-- The first entry on or below the path. -/
def first? (r : Record) (p : List String) : Option Entry := r.entries.find? fun e => p <+: e.segments

/-- How many entries there are before the first one on or below the path. -/
def position (r : Record) (p : List String) : Nat := r.entries.findIdx fun e => p <+: e.segments

def marks (r : Record) : List Mark := r.entries.map Entry.mark

theorem known_marks_iff {r : Record} {p : List String} :
    Mark.Known r.marks p ↔ ∃ e ∈ r.entries, p <+: e.segments := by
  simp [Mark.Known, marks, Entry.mark]

theorem position_marks (r : Record) (p : List String) : Mark.position r.marks p = r.position p := by
  rw [Mark.position, marks, List.findIdx_map]
  rfl

theorem first?_marks (r : Record) (p : List String) : Mark.first? r.marks p = (r.first? p).map Entry.mark := by
  rw [Mark.first?, marks, List.find?_map]
  rfl

end Record

theorem Entry.kind_eq_file_iff {e : Entry} : e.kind = .file ↔ e.isFile = true := by
  unfold Entry.kind
  split <;> simp_all

theorem represents_foldl (es : List Entry) {ms : List Mark} {t : Tree} (h : t.Represents ms) :
    (es.foldl (fun t e => t.insert e.kind e.segments) t).Represents (ms ++ es.map Entry.mark) := by
  induction es generalizing ms t with
  | nil => simpa using h
  | cons e es ih => simpa [Entry.mark] using ih (Tree.represents_insert h e.segments e.kind)

theorem represents_ofRecord (r : Record) (root : Path) : (Tree.ofRecord r root).Represents r.marks :=
  represents_foldl r.entries Tree.represents_leaf

/-- The nodes below the root are the paths that entries are on or below, each once. Children come in the order of their
first entries. A node is a file if its first entry is a file in that very place. -/
structure IsTrie (r : Record) (t : Tree) : Prop where
  nodup : t.paths.Nodup
  paths : ∀ p, p ≠ [] → (p ∈ t.paths ↔ ∃ e ∈ r.entries, p <+: e.segments)
  names : ∀ p x, (p, x) ∈ t.nodes → (x.children.map Tree.name).Nodup
  order : ∀ p x, (p, x) ∈ t.nodes →
    (x.children.map Tree.name).Pairwise fun s s' => r.position (p ++ [s]) < r.position (p ++ [s'])
  kinds : ∀ p x, p ≠ [] → (p, x) ∈ t.nodes →
    (x.kind = .file ↔ ∃ e, r.first? p = some e ∧ e.segments = p ∧ e.isFile = true)

theorem isTrie_of_represents {r : Record} {t : Tree} (h : t.Represents r.marks) : IsTrie r t where
  nodup := h.nodup_paths
  paths p hp := by rw [h.mem_paths_iff hp, Record.known_marks_iff]
  names p x hx := Tree.map_name x.children ▸ (h.at hx).siblings.nodup
  order p x hx := by simpa only [Record.position_marks] using h.ordered hx
  kinds p x hp hx := by
    rw [h.kind_iff hp hx, Record.first?_marks, Option.map_eq_some_iff]
    simp only [Entry.mark, Prod.mk.injEq, Entry.kind_eq_file_iff]

/-- **The tree of a record is the trie of its paths.** An entry whose path leads to a node adds nothing. -/
theorem ofRecord_trie (r : Record) (root : Path) : IsTrie r (Tree.ofRecord r root) ∧
    ∀ e, e.segments ∈ (Tree.ofRecord r root).paths → ∀ colored,
      (Tree.ofRecord (r.push e) root).draw colored = (Tree.ofRecord r root).draw colored := by
  have h := represents_ofRecord r root
  refine ⟨isTrie_of_represents h, fun e he colored => ?_⟩
  have hpush : Tree.ofRecord (r.push e) root = (Tree.ofRecord r root).insert e.kind e.segments := by
    rw [Tree.ofRecord, Record.push, List.foldl_append]
    rfl
  rw [hpush, h.insert_eq_self he]

end EclipseProject.Staging
