import EclipseProject.Toml.Document

/-!
# No key twice

However a table came to be, by headers, dotted keys or within a line, no key stands in it twice. Each way of adding
to a table keeps that, so it holds of every document that is read, at all depths.
-/

namespace EclipseProject.Toml

theorem lookup_eq_none_iff_notMem {α : Type} {es : List (String × α)} {key : String} :
    es.lookup key = none ↔ key ∉ es.map Prod.fst := by
  simp only [List.lookup_eq_none_iff, bne_iff_ne, List.mem_map, not_exists, not_and]
  exact forall₂_congr fun e _ => ne_comm

/-- No table in the value has a key twice. -/
inductive Value.Distinct : Value → Prop
  | string (s : String) : Distinct (.string s)
  | integer (n : Int) : Distinct (.integer n)
  | float (x : Binary64) : Distinct (.float x)
  | boolean (b : Bool) : Distinct (.boolean b)
  | datetime (d : Datetime) : Distinct (.datetime d)
  | array {vs : List Value} (h : ∀ v ∈ vs, Distinct v) : Distinct (.array vs)
  | table {es : List (String × Value)} (hn : (es.map Prod.fst).Nodup) (h : ∀ e ∈ es, Distinct e.2) :
      Distinct (.table es)

theorem Value.Distinct.of_cons {e : String × Value} {es : List (String × Value)}
    (h : (Value.table (e :: es)).Distinct) : e.1 ∉ es.map Prod.fst ∧ e.2.Distinct ∧ (Value.table es).Distinct := by
  cases h with
  | table hn h =>
    obtain ⟨he, hes⟩ := List.nodup_cons.mp hn
    exact ⟨he, h e List.mem_cons_self, .table hes fun x hx => h x (List.mem_cons_of_mem e hx)⟩

theorem Value.Distinct.of_lookup {es : List (String × Value)} {key : String} {v : Value}
    (h : (Value.table es).Distinct) (hl : es.lookup key = some v) : v.Distinct := by
  cases h with
  | table _ h =>
    obtain ⟨l₁, l₂, rfl, _⟩ := List.lookup_eq_some_iff.mp hl
    exact h (key, v) (by simp)

inductive Node.Distinct : Node → Prop
  | leaf {v : Value} (h : v.Distinct) : Distinct (.leaf v)
  | table {origin : Origin} {es : Entries} (hn : (es.map Prod.fst).Nodup) (h : ∀ e ∈ es, Distinct e.2) :
      Distinct (.table origin es)
  | tables {ts : List Entries} (hn : ∀ es ∈ ts, (es.map Prod.fst).Nodup) (h : ∀ es ∈ ts, ∀ e ∈ es, Distinct e.2) :
      Distinct (.tables ts)

structure Entries.Distinct (es : Entries) : Prop where
  nodup : (es.map Prod.fst).Nodup
  nodes : ∀ e ∈ es, e.2.Distinct

/-! ## Finished tables -/

theorem entriesToValues_eq_map (es : Entries) : entriesToValues es = es.map fun e => (e.1, e.2.toValue) := by
  induction es with
  | nil => rw [entriesToValues, List.map_nil]
  | cons e es ih => rw [entriesToValues, ih, List.map_cons]

theorem tablesToValues_eq_map (ts : List Entries) :
    tablesToValues ts = ts.map fun es => .table (entriesToValues es) := by
  induction ts with
  | nil => rw [tablesToValues, List.map_nil]
  | cons es ts ih => rw [tablesToValues, ih, List.map_cons]

theorem keys_entriesToValues (es : Entries) : (entriesToValues es).map Prod.fst = es.map Prod.fst := by
  rw [entriesToValues_eq_map, List.map_map]
  rfl

theorem distinct_entriesToValues {es : Entries} (hn : (es.map Prod.fst).Nodup) (h : ∀ e ∈ es, e.2.toValue.Distinct) :
    (Value.table (entriesToValues es)).Distinct := by
  refine .table (by rwa [keys_entriesToValues]) fun x hx => ?_
  rw [entriesToValues_eq_map] at hx
  obtain ⟨e, he, rfl⟩ := List.mem_map.mp hx
  exact h e he

theorem Node.Distinct.toValue {n : Node} (h : n.Distinct) : n.toValue.Distinct := by
  induction h with
  | leaf h => rwa [Node.toValue]
  | table hn _ ih =>
    rw [Node.toValue]
    exact distinct_entriesToValues hn ih
  | tables hn _ ih =>
    rw [Node.toValue, tablesToValues_eq_map]
    refine .array fun v hv => ?_
    obtain ⟨es, hes, rfl⟩ := List.mem_map.mp hv
    exact distinct_entriesToValues (hn es hes) (ih es hes)

theorem Entries.Distinct.toValues {es : Entries} (h : es.Distinct) : (Value.table (entriesToValues es)).Distinct :=
  distinct_entriesToValues h.nodup fun e he => (h.nodes e he).toValue

/-! ## Adding entries -/

namespace Entries

variable {es es' : Entries} {key : String} {n : Node}

theorem Distinct.nil : Distinct [] := ⟨.nil, by simp⟩

theorem Distinct.of_table {origin : Origin} (h : (Node.table origin es).Distinct) : es.Distinct := by
  cases h with
  | table hn h => exact ⟨hn, h⟩

theorem Distinct.of_tables {ts : List Entries} (h : (Node.tables ts).Distinct) : ∀ es ∈ ts, es.Distinct := by
  cases h with
  | tables hn h => exact fun es hes => ⟨hn es hes, h es hes⟩

theorem Distinct.table (h : es.Distinct) (origin : Origin) : (Node.table origin es).Distinct := .table h.nodup h.nodes

theorem distinct_tables {ts : List Entries} (h : ∀ es ∈ ts, es.Distinct) : (Node.tables ts).Distinct :=
  .tables (fun es hes => (h es hes).nodup) fun es hes => (h es hes).nodes

theorem Distinct.of_lookup (h : es.Distinct) (hl : es.lookup key = some n) : n.Distinct := by
  obtain ⟨l₁, l₂, rfl, _⟩ := List.lookup_eq_some_iff.mp hl
  exact h.nodes (key, n) (by simp)

theorem Distinct.append (h : es.Distinct) (hk : key ∉ es.map Prod.fst) (hn : n.Distinct) :
    Distinct (es ++ [(key, n)]) := by
  refine ⟨?_, fun e he => ?_⟩
  · rw [List.map_append]
    exact List.nodup_append.mpr ⟨h.nodup, by simp, fun a ha b hb hab => hk (by simp_all)⟩
  · obtain he | he := List.mem_append.mp he
    · exact h.nodes e he
    · rw [List.mem_singleton.mp he]
      exact hn

theorem keys_replace : (replace key n es).map Prod.fst = es.map Prod.fst := by
  rw [replace, List.map_map]
  refine List.map_congr_left fun e _ => ?_
  by_cases hk : e.1 = key <;> simp [hk]

theorem Distinct.replace (h : es.Distinct) (hn : n.Distinct) : Distinct (replace key n es) := by
  refine ⟨by rw [keys_replace]; exact h.nodup, fun e he => ?_⟩
  obtain ⟨x, hx, rfl⟩ := List.mem_map.mp he
  split
  · exact hn
  · exact h.nodes x hx

theorem Distinct.filter (h : es.Distinct) (p : String × Node → Bool) : Distinct (es.filter p) :=
  ⟨h.nodup.sublist (List.filter_sublist.map _), fun e he => h.nodes e (List.mem_filter.mp he).1⟩

/-- A change that keeps keys distinct. -/
def Keeps (change : Entries → Option Entries) : Prop := ∀ es es', Distinct es → change es = some es' → Distinct es'

theorem distinct_changeLast {change : Entries → Option Entries} (hc : Keeps change) {ts ts' : List Entries}
    (h : ∀ es ∈ ts, es.Distinct) (hts : changeLast change ts = some ts') : ∀ es ∈ ts', es.Distinct := by
  induction ts generalizing ts' with
  | nil => cases hts
  | cons es ts ih =>
    cases ts with
    | nil =>
      obtain ⟨es', hes', rfl⟩ := Option.map_eq_some_iff.mp hts
      intro x hx
      rw [List.mem_singleton.mp hx]
      exact hc es es' (h es (by simp)) hes'
    | cons t ts =>
      obtain ⟨more, hmore, rfl⟩ := Option.map_eq_some_iff.mp hts
      intro x hx
      obtain rfl | hx := List.mem_cons.mp hx
      · exact h x (by simp)
      · exact ih (fun y hy => h y (by simp [hy])) hmore x hx

theorem keeps_descend {dotted : Bool} {change : Origin → Entries → Option Entries} (hc : ∀ o, Keeps (change o))
    (path : List String) (origin : Origin) : Keeps (descend dotted change path origin) := by
  induction path generalizing origin with
  | nil => exact hc origin
  | cons key path ih =>
    intro es es' h hd
    rw [descend] at hd
    split at hd
    · next hl =>
      obtain ⟨inner, hinner, rfl⟩ := Option.map_eq_some_iff.mp hd
      exact h.append (lookup_eq_none_iff_notMem.mp hl) ((ih _ [] inner .nil hinner).table _)
    · cases hd
    · next origin' start hl =>
      split at hd
      · cases hd
      · obtain ⟨inner, hinner, rfl⟩ := Option.map_eq_some_iff.mp hd
        exact h.replace ((ih _ start inner (.of_table (h.of_lookup hl)) hinner).table _)
    · next ts hl =>
      obtain ⟨ts', hts', rfl⟩ := Option.map_eq_some_iff.mp hd
      exact h.replace (distinct_tables (distinct_changeLast (ih _) (.of_tables (h.of_lookup hl)) hts'))

theorem distinct_insert {p : KeyPath × Value} (hv : p.2.Distinct) : Keeps (insert · p) := by
  refine keeps_descend (fun o es es' h hi => ?_) _ _
  split at hi
  · unfold insertNew at hi
    split at hi
    · cases hi
    · next hl =>
      cases hi
      exact h.append (lookup_eq_none_iff_notMem.mp (Option.not_isSome_iff_eq_none.mp hl)) (.leaf hv)
  · cases hi

theorem distinct_insertAll {ps : List (KeyPath × Value)} (hv : ∀ p ∈ ps, p.2.Distinct) : Keeps (insertAll · ps) := by
  induction ps with
  | nil =>
    intro es es' h hi
    cases hi
    exact h
  | cons p ps ih =>
    intro es es' h hi
    simp only [insertAll, List.foldlM_cons] at hi
    obtain ⟨es₁, h₁, hi⟩ := Option.bind_eq_some_iff.mp hi
    exact ih (fun q hq => hv q (by simp [hq])) es₁ es' (distinct_insert (hv p (by simp)) es es₁ h h₁) hi

theorem distinct_declare {path : KeyPath} {ps : List (KeyPath × Value)} (hv : ∀ p ∈ ps, p.2.Distinct) :
    Keeps (declare · path ps) := by
  refine keeps_descend (fun o es es' h hd => ?_) _ _
  split at hd
  · next hl =>
    obtain ⟨inner, hinner, rfl⟩ := Option.map_eq_some_iff.mp hd
    exact h.append (lookup_eq_none_iff_notMem.mp hl) ((distinct_insertAll hv [] inner .nil hinner).table _)
  · next start hl =>
    obtain ⟨inner, hinner, rfl⟩ := Option.map_eq_some_iff.mp hd
    refine (h.filter _).append ?_ ((distinct_insertAll hv start inner (.of_table (h.of_lookup hl)) hinner).table _)
    simp
  · cases hd

theorem distinct_declareElement {path : KeyPath} {ps : List (KeyPath × Value)} (hv : ∀ p ∈ ps, p.2.Distinct) :
    Keeps (declareElement · path ps) := by
  refine keeps_descend (fun o es es' h hd => ?_) _ _
  split at hd
  · next hl =>
    obtain ⟨inner, hinner, rfl⟩ := Option.map_eq_some_iff.mp hd
    refine h.append (lookup_eq_none_iff_notMem.mp hl) (distinct_tables fun x hx => ?_)
    rw [List.mem_singleton.mp hx]
    exact distinct_insertAll hv [] inner .nil hinner
  · next ts hl =>
    obtain ⟨inner, hinner, rfl⟩ := Option.map_eq_some_iff.mp hd
    refine h.replace (distinct_tables fun x hx => ?_)
    obtain hx | hx := List.mem_append.mp hx
    · exact Distinct.of_tables (h.of_lookup hl) x hx
    · rw [List.mem_singleton.mp hx]
      exact distinct_insertAll hv [] inner .nil hinner
  · cases hd

end Entries

/-! ## What readers give -/

/-- Whatever the reader takes from a text has the property. -/
def Reader.Gives {α : Type} (r : Reader α) (P : α → Prop) : Prop := ∀ cs x rest, r cs = some (x, rest) → P x

section Readers

variable {value : Reader Value}

theorem gives_elements (hv : Reader.Gives value Value.Distinct) (n : Nat) :
    Reader.Gives (elements value n) fun vs => ∀ v ∈ vs, v.Distinct := by
  induction n with
  | zero => exact fun cs vs rest h => by cases h
  | succ n ih =>
    intro cs vs rest h
    rw [elements] at h
    split at h
    · cases h
      simp
    · obtain ⟨⟨v, more⟩, hfirst, h⟩ := Option.bind_eq_some_iff.mp h
      have hd := hv _ _ _ hfirst
      dsimp only at h
      split at h
      · obtain ⟨⟨vs', more'⟩, hrest, h⟩ := Option.bind_eq_some_iff.mp h
        cases h
        exact List.forall_mem_cons.mpr ⟨hd, ih _ _ _ hrest⟩
      · cases h
        simpa using hd
      · cases h

theorem gives_pair (hv : Reader.Gives value Value.Distinct) : Reader.Gives (pair value) fun p => p.2.Distinct := by
  intro cs p rest h
  obtain ⟨⟨path, more⟩, _, h⟩ := Option.bind_eq_some_iff.mp h
  dsimp only at h
  split at h
  · obtain ⟨⟨v, more'⟩, hval, h⟩ := Option.bind_eq_some_iff.mp h
    cases h
    exact hv _ _ _ hval
  · cases h

theorem gives_pairs (hv : Reader.Gives value Value.Distinct) (n : Nat) :
    Reader.Gives (pairs value n) fun ps => ∀ p ∈ ps, p.2.Distinct := by
  induction n with
  | zero => exact fun cs ps rest h => by cases h
  | succ n ih =>
    intro cs ps rest h
    obtain ⟨⟨p, more⟩, hfirst, h⟩ := Option.bind_eq_some_iff.mp h
    have hd := gives_pair hv _ _ _ hfirst
    dsimp only at h
    split at h
    · obtain ⟨⟨ps', more'⟩, hrest, h⟩ := Option.bind_eq_some_iff.mp h
      cases h
      exact List.forall_mem_cons.mpr ⟨hd, ih _ _ _ hrest⟩
    · cases h
      simpa using hd
    · cases h

theorem gives_inlineTable (hv : Reader.Gives value Value.Distinct) :
    Reader.Gives (inlineTable value) Value.Distinct := by
  intro cs v rest h
  unfold inlineTable at h
  split at h
  · cases h
    exact .table .nil (by simp)
  · obtain ⟨⟨ps, more⟩, hps, h⟩ := Option.bind_eq_some_iff.mp h
    obtain ⟨es, hes, h⟩ := Option.bind_eq_some_iff.mp h
    cases h
    exact (Entries.distinct_insertAll (gives_pairs hv _ _ _ _ hps) [] es .nil hes).toValues

theorem gives_dateOrNumber : Reader.Gives dateOrNumber Value.Distinct := by
  intro cs v rest h
  unfold dateOrNumber at h
  split at h
  · obtain ⟨x, _, h⟩ := Option.map_eq_some_iff.mp h
    cases h
    exact .datetime x.1
  · obtain ⟨⟨x, more⟩, _, h⟩ := Option.map_eq_some_iff.mp h
    cases x with
    | integer n => cases h; exact .integer n
    | float f => cases h; exact .float f

theorem gives_stringValue : Reader.Gives (fun cs => (string cs).map fun x => (.string x.1, x.2)) Value.Distinct := by
  intro cs v rest h
  obtain ⟨x, _, h⟩ := Option.map_eq_some_iff.mp h
  cases h
  exact .string x.1

theorem gives_keyword {word : String} {v : Value} (hd : v.Distinct) :
    Reader.Gives (keyword word v) Value.Distinct := by
  intro cs x rest h
  unfold keyword at h
  split at h
  · cases h
    exact hd
  · cases h

theorem gives_valueUpTo (n : Nat) : Reader.Gives (valueUpTo n) Value.Distinct := by
  -- arrays and inline tables hold values that are nested less deep; the other cases need no hypothesis
  induction n using Nat.strongRecOn with
  | ind n ih =>
    intro cs v rest h
    unfold valueUpTo at h
    split at h
    · exact gives_stringValue _ _ _ h
    · exact gives_stringValue _ _ _ h
    · exact gives_keyword (.boolean true) _ _ _ h
    · exact gives_keyword (.boolean false) _ _ _ h
    · next m more =>
      obtain ⟨x, hx, h⟩ := Option.map_eq_some_iff.mp h
      cases h
      exact .array (gives_elements (ih m (Nat.lt_succ_self m)) _ _ _ _ hx)
    · next m more => exact gives_inlineTable (ih m (Nat.lt_succ_self m)) _ _ _ h
    · exact gives_dateOrNumber _ _ _ h

end Readers

/-! ## Documents -/

def Item.Distinct : Item → Prop
  | .pair _ v => v.Distinct
  | .table _ => True
  | .element _ => True

theorem gives_header : Reader.Gives header Item.Distinct := by
  intro cs x rest h
  unfold header at h
  split at h
  all_goals
    obtain ⟨⟨path, more⟩, _, h⟩ := Option.bind_eq_some_iff.mp h
    dsimp only at h
    split at h
    · cases h
      trivial
    · cases h

theorem gives_item : Reader.Gives item Item.Distinct := by
  intro cs x rest h
  unfold item at h
  split at h
  · exact gives_header _ _ _ h
  · obtain ⟨⟨p, more⟩, hp, h⟩ := Option.map_eq_some_iff.mp h
    cases h
    exact gives_pair (gives_valueUpTo maxNesting) _ _ _ hp

theorem distinct_itemsUpTo {n : Nat} {cs : List Char} {xs : List Item} (h : itemsUpTo n cs = some xs) :
    ∀ x ∈ xs, x.Distinct := by
  induction n generalizing cs xs with
  | zero => cases h
  | succ n ih =>
    unfold itemsUpTo at h
    split at h
    · cases h
      simp
    · obtain ⟨⟨x, more⟩, hx, h⟩ := Option.bind_eq_some_iff.mp h
      obtain ⟨rest, _, h⟩ := Option.bind_eq_some_iff.mp h
      obtain ⟨xs', hxs, h⟩ := Option.bind_eq_some_iff.mp h
      cases h
      exact List.forall_mem_cons.mpr ⟨gives_item _ _ _ hx, ih hxs⟩

theorem distinct_items {cs : List Char} {xs : List Item} (h : items cs = some xs) : ∀ x ∈ xs, x.Distinct := by
  unfold items at h
  split at h <;> exact distinct_itemsUpTo h

theorem distinct_splitPairs {xs : List Item} (h : ∀ x ∈ xs, x.Distinct) : ∀ p ∈ (splitPairs xs).1, p.2.Distinct := by
  induction xs with
  | nil => simp [splitPairs]
  | cons x xs ih =>
    have ⟨hx, hxs⟩ := List.forall_mem_cons.mp h
    cases x with
    | pair path v => exact List.forall_mem_cons.mpr ⟨hx, ih hxs⟩
    | table path => simp [splitPairs]
    | element path => simp [splitPairs]

theorem distinct_addSections {xs : List Item} (h : ∀ x ∈ xs, x.Distinct) : Entries.Keeps (addSections · xs) := by
  induction xs with
  | nil =>
    intro es es' hes hadd
    cases hadd
    exact hes
  | cons x xs ih =>
    have hxs := (List.forall_mem_cons.mp h).2
    intro es es' hes hadd
    cases x with
    | pair path v => exact ih hxs es es' hes hadd
    | table path =>
      obtain ⟨es₁, h₁, hadd⟩ := Option.bind_eq_some_iff.mp hadd
      exact ih hxs es₁ es' (Entries.distinct_declare (distinct_splitPairs hxs) es es₁ hes h₁) hadd
    | element path =>
      obtain ⟨es₁, h₁, hadd⟩ := Option.bind_eq_some_iff.mp hadd
      exact ih hxs es₁ es' (Entries.distinct_declareElement (distinct_splitPairs hxs) es es₁ hes h₁) hadd

theorem distinct_ofItems {xs : List Item} {es : Entries} (h : ∀ x ∈ xs, x.Distinct) (hes : ofItems xs = some es) :
    es.Distinct := by
  obtain ⟨es₁, h₁, hes⟩ := Option.bind_eq_some_iff.mp hes
  exact distinct_addSections h es₁ es (Entries.distinct_insertAll (distinct_splitPairs h) [] es₁ .nil h₁) hes

theorem distinct_of_parse {text : String} {t : List (String × Value)} (h : parse text = some t) :
    (Value.table t).Distinct := by
  obtain ⟨es, hes, rfl⟩ := Option.map_eq_some_iff.mp h
  obtain ⟨xs, hxs, hes⟩ := Option.bind_eq_some_iff.mp hes
  exact (distinct_ofItems (distinct_items hxs) hes).toValues

end EclipseProject.Toml
