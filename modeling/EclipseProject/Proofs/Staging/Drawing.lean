import EclipseProject.Proofs.Staging.Trie
import EclipseProject.Proofs.Text.Lines

/-!
# A drawing can be read

A line of a drawing is a row of units, a connector and a name. Reading takes units until it meets a connector, so a name
may look like more of the drawing. The rows tell depths and names in preorder, which determine the tree but for the
kinds of its nodes.
-/

namespace EclipseProject.Staging

namespace Tree

/-! ## Rows -/

/-- What a line tells: for each column whether it is blank, whether the connector is that of a last child, and the
name. -/
structure Row where
  columns : List Bool
  isLast : Bool
  name : String
  deriving DecidableEq, Repr

def Row.depth (r : Row) : Nat := r.columns.length

def Row.behind (blank : Bool) (r : Row) : Row := { r with columns := blank :: r.columns }

/-- Units of four characters are taken up to the first connector. What is left is the name. -/
def readRow? : List Char → Option Row
  | ' ' :: ' ' :: ' ' :: ' ' :: rest => (readRow? rest).map (Row.behind true)
  | '│' :: ' ' :: ' ' :: ' ' :: rest => (readRow? rest).map (Row.behind false)
  | '├' :: '─' :: '─' :: ' ' :: rest => some ⟨[], false, .ofList rest⟩
  | '└' :: '─' :: '─' :: ' ' :: rest => some ⟨[], true, .ofList rest⟩
  | _ => none

/-- Each line ends in a line feed, the last one too. -/
def readRows? (text : String) : Option (List Row) :=
  let pieces := Text.lines text.toList
  if pieces.getLast? = some [] then pieces.dropLast.mapM readRow? else none

def readOutline? (text : String) : Option (List (Nat × String)) :=
  (readRows? text).map fun rows => rows.map fun r => (r.depth, r.name)

def Line.row (l : Line) : Row := ⟨l.above, l.isLast, l.name⟩

def Line.shown (l : Line) : List Char :=
  l.above.flatMap (fun b => (unit b).toList) ++ (connector l.isLast).toList ++ l.name.toList

theorem toList_text (l : Line) : (l.text false).toList = l.shown ++ ['\n'] := by
  cases l.kind <;> simp [Line.text, Line.shown, Style.paint, String.toList_join, List.flatMap_map]

theorem readRow?_shown (l : Line) : readRow? l.shown = some l.row := by
  obtain ⟨above, isLast, name, kind⟩ := l
  dsimp only [Line.shown, Line.row]
  induction above with
  | nil => cases isLast <;> simp [connector, readRow?]
  | cons b above ih =>
    have hunit (rest : List Char) : readRow? ((unit b).toList ++ rest) = (readRow? rest).map (Row.behind b) := by
      cases b <;> simp [unit, readRow?]
    rw [List.flatMap_cons, List.append_assoc, List.append_assoc, hunit, ← List.append_assoc, ih]
    rfl

theorem newline_notMem_shown {l : Line} (h : '\n' ∉ l.name.toList) : '\n' ∉ l.shown := by
  have hunit (b : Bool) : '\n' ∉ (unit b).toList := by cases b <;> decide
  have hconnector : '\n' ∉ (connector l.isLast).toList := by cases l.isLast <;> decide
  simp [Line.shown, hunit, hconnector, h]

/-- Lines that are written one after the other are read again row by row. -/
theorem readRows?_join {ls : List Line} (h : ∀ l ∈ ls, '\n' ∉ l.name.toList) :
    readRows? (String.join (ls.map (Line.text false))) = some (ls.map Line.row) := by
  have htext : (String.join (ls.map (Line.text false))).toList = (ls.map Line.shown).flatMap (· ++ ['\n']) := by
    simp [String.toList_join, List.flatMap_map, toList_text]
  have hpieces : Text.lines ((ls.map Line.shown).flatMap (· ++ ['\n'])) = ls.map Line.shown ++ [[]] := by
    refine Text.lines_flatMap fun line hline => ?_
    obtain ⟨l, hl, rfl⟩ := List.mem_map.mp hline
    exact newline_notMem_shown (h l hl)
  have hrows : (ls.map Line.shown).mapM readRow? = some (ls.map Line.row) := by
    rw [List.mapM_map]
    exact Text.mapM_eq_some_map fun l _ => readRow?_shown l
  simp only [readRows?, htext, hpieces, List.getLast?_concat, List.dropLast_concat, if_true, hrows]

/-! ## Induction over siblings and children -/

theorem forestInduction {motive : List Tree → Prop} (nil : motive [])
    (cons : ∀ n k cs ts, motive cs → motive ts → motive (.node n k cs :: ts)) : ∀ ts, motive ts
  | [] => nil
  | .node n k cs :: ts => cons n k cs ts (forestInduction nil cons cs) (forestInduction nil cons ts)

/-! ## Last children -/

/-- The root counts as a last child. -/
def IsLast (t : Tree) (p : List String) : Prop :=
  p = [] ∨ ∃ q s x, p = q ++ [s] ∧ (q, x) ∈ t.nodes ∧ (x.children.map name).getLast? = some s

/-- Siblings have different names, everywhere in the tree. -/
def Distinct (t : Tree) : Prop := ∀ p x, (p, x) ∈ t.nodes → (x.children.map name).Nodup

variable {t c : Tree} {ts cs : List Tree} {n m s : String} {k j : Kind} {p : List String} {above : List Bool}

theorem isLast_nil : t.IsLast [] := Or.inl rfl

theorem isLast_singleton : (node n k ts).IsLast [s] ↔ (ts.map name).getLast? = some s := by
  constructor
  · rintro (h | ⟨q, s', x, hp, hx, hlast⟩)
    · cases h
    · have hsplit : [] ++ [s] = q ++ [s'] := hp
      obtain ⟨rfl, hs⟩ := List.append_inj' hsplit rfl
      obtain rfl := mem_nodes_nil.mp hx
      rw [List.cons.inj hs |>.1]
      exact hlast
  · intro h
    exact Or.inr ⟨[], s, _, rfl, mem_nodes_nil.mpr rfl, h⟩

/-- Below the root the children decide. -/
theorem isLast_cons (hp : p ≠ []) : (node n k ts).IsLast (s :: p) ↔ ∃ c ∈ ts, c.name = s ∧ c.IsLast p := by
  constructor
  · rintro (h | ⟨q, s', x, hq, hx, hlast⟩)
    · cases h
    · cases q with
      | nil => exact absurd (List.cons.inj hq).2 hp
      | cons r q =>
        obtain ⟨rfl, rfl⟩ := List.cons.inj hq
        obtain ⟨c, hc, hs, hx⟩ := mem_nodes_cons.mp hx
        exact ⟨c, hc, hs, Or.inr ⟨q, s', x, rfl, hx, hlast⟩⟩
  · rintro ⟨c, hc, rfl, h⟩
    obtain ⟨q, s', x, rfl, hx, hlast⟩ := h.resolve_left hp
    exact Or.inr ⟨c.name :: q, s', x, rfl, mem_nodes_cons.mpr ⟨c, hc, rfl, hx⟩, hlast⟩

section
variable (hn : ((node m j cs :: ts).map name).Nodup)
include hn

theorem isLast_first : (node n k (node m j cs :: ts)).IsLast [m] ↔ ts.isEmpty = true := by
  rw [isLast_singleton, List.isEmpty_iff]
  constructor
  · intro h
    rw [List.map_cons, List.nodup_cons] at hn
    by_contra hts
    rw [List.map_cons, List.getLast?_cons_of_ne_nil (by simpa using hts)] at h
    exact hn.1 (List.mem_of_getLast? h)
  · rintro rfl
    rfl

theorem isLast_first_cons (hp : p ≠ []) :
    (node n k (node m j cs :: ts)).IsLast (m :: p) ↔ (node m j cs).IsLast p := by
  rw [isLast_cons hp]
  constructor
  · rintro ⟨c, hc, hname, h⟩
    obtain rfl : c = node m j cs := List.inj_on_of_nodup_map hn hc (List.mem_cons_self ..) hname
    exact h
  · exact fun h => ⟨_, List.mem_cons_self .., rfl, h⟩

omit hn in
theorem isLast_later (hs : s ≠ m) :
    (node n k (node m j cs :: ts)).IsLast (s :: p) ↔ (node n k ts).IsLast (s :: p) := by
  by_cases hp : p = []
  · rw [hp, isLast_singleton, isLast_singleton, List.map_cons]
    cases ts with
    | nil => simp [name, Ne.symm hs]
    | cons u us => rw [List.getLast?_cons_of_ne_nil (by simp)]
  · rw [isLast_cons hp, isLast_cons hp]
    constructor
    · rintro ⟨c, hc, rfl, h⟩
      refine ⟨c, (List.mem_cons.mp hc).resolve_left ?_, rfl, h⟩
      rintro rfl
      exact hs rfl
    · rintro ⟨c, hc, hname, h⟩
      exact ⟨c, List.mem_cons_of_mem _ hc, hname, h⟩

end

theorem Distinct.nodup (h : (node n k ts).Distinct) : (ts.map name).Nodup := h [] _ (mem_nodes_nil.mpr rfl)

theorem Distinct.child (h : t.Distinct) (hc : c ∈ t.children) : c.Distinct :=
  fun p x hx => h (c.name :: p) x (mem_nodes_cons.mpr ⟨c, hc, rfl, hx⟩)

theorem Distinct.later (h : (node n k (c :: ts)).Distinct) : (node n k ts).Distinct := by
  intro p x hx
  cases p with
  | nil =>
    obtain rfl := mem_nodes_nil.mp hx
    exact (List.nodup_cons.mp h.nodup).2
  | cons s p =>
    obtain ⟨d, hd, rfl, hbelow⟩ := mem_nodes_cons.mp hx
    exact h.child (List.mem_cons_of_mem _ hd) p x hbelow

/-! ## What the lines show -/

/-- A row shows a node: its name and depth, and of it and each node above whether it is a last child. -/
structure Row.Shows (t : Tree) (p : List String) (x : Tree) (r : Row) : Prop where
  name : r.name = x.name
  depth : r.depth = p.length
  connector : r.isLast = true ↔ t.IsLast p
  columns : ∀ i < p.length, r.columns[i]? = some true ↔ t.IsLast (p.take i)

/-- What a line adds to the marks above: one for each node on the way to its own. -/
def Marks (t : Tree) (above : List Bool) (p : List String) (l : Line) : Prop :=
  ∃ marks : List Bool, l.above ++ [l.isLast] = above ++ marks ∧ marks.length = p.length ∧
    ∀ i < p.length, marks[i]? = some true ↔ t.IsLast (p.take (i + 1))

theorem forall₂_imp {α β : Type} {R S : α → β → Prop} {as : List α} {bs : List β} (h : List.Forall₂ R as bs)
    (hS : ∀ a ∈ as, ∀ b, R a b → S a b) : List.Forall₂ S as bs := by
  induction h with
  | nil => exact .nil
  | cons hab _ ih =>
    exact .cons (hS _ (List.mem_cons_self ..) _ hab) (ih fun a ha => hS a (List.mem_cons_of_mem _ ha))

theorem marks_childLines (ts : List Tree) : ∀ (above : List Bool) {n k}, (node n k ts).Distinct →
    List.Forall₂ (fun x l => l.name = x.2.name ∧ Marks (node n k ts) above x.1 l) (childNodes ts)
      (childLines above ts) := by
  induction ts using forestInduction with
  | nil => exact fun _ _ _ _ => .nil
  | cons m j cs ts children later =>
    intro above n k h
    have hn := h.nodup
    have hfirst := isLast_first (n := n) (k := k) hn
    rw [childNodes, childLines, nodes, lines, List.map_cons, List.cons_append, List.cons_append]
    refine .cons ⟨rfl, [ts.isEmpty], rfl, rfl, ?_⟩ (List.rel_append ?_ ?_)
    · intro i hi
      obtain rfl : i = 0 := by simpa using hi
      simpa [name] using hfirst.symm
    · rw [List.forall₂_map_left_iff]
      have hbelow := children (above ++ [ts.isEmpty]) (h.child (List.mem_cons_self ..))
      refine hbelow.imp fun x l hx => ?_
      obtain ⟨hname, marks, hmarks, hlength, hlast⟩ := hx
      refine ⟨hname, ts.isEmpty :: marks, by simpa using hmarks, by simpa using hlength, fun i hi => ?_⟩
      cases i with
      | zero => simpa [name] using hfirst.symm
      | succ i =>
        have hi : i < x.1.length := by simpa using hi
        have hne : x.1.take (i + 1) ≠ [] := by
          rw [ne_eq, List.take_eq_nil_iff]
          rintro (hzero | hnil)
          · cases hzero
          · simp [hnil] at hi
        rw [List.getElem?_cons_succ, hlast i hi]
        exact (isLast_first_cons hn hne).symm
    · refine forall₂_imp (later above h.later) fun x hx l hl => ?_
      obtain ⟨hname, marks, hmarks, hlength, hlast⟩ := hl
      refine ⟨hname, marks, hmarks, hlength, fun i hi => ?_⟩
      obtain ⟨_ | ⟨s, p⟩, y⟩ := x
      · exact absurd hx nil_notMem_childNodes
      · obtain ⟨c, hc, rfl, _⟩ := mem_childNodes_cons.mp hx
        have hne : c.name ≠ m := by
          rintro rfl
          exact (List.nodup_cons.mp hn).1 (List.mem_map.mpr ⟨c, hc, rfl⟩)
        rw [hlast i hi]
        exact (isLast_later hne).symm

theorem shows_lines (h : t.Distinct) :
    List.Forall₂ (fun x l => (Line.row l).Shows t x.1 x.2) t.nodes (t.lines [] true) := by
  obtain ⟨n, k, ts⟩ := t
  rw [nodes, lines]
  refine .cons ⟨rfl, rfl, iff_of_true rfl isLast_nil, fun _ hi => absurd hi (Nat.not_lt_zero _)⟩ ?_
  refine forall₂_imp (marks_childLines ts [true] h) fun x hx l hl => ?_
  obtain ⟨hname, marks, hmarks, hlength, hlast⟩ := hl
  have hdepth : l.above.length = x.1.length := by simpa [hlength] using congrArg List.length hmarks
  have hall : ∀ i ≤ x.1.length, (l.above ++ [l.isLast])[i]? = some true ↔ (node n k ts).IsLast (x.1.take i) := by
    intro i hi
    rw [hmarks]
    cases i with
    | zero => simp [isLast_nil]
    | succ i => exact hlast i hi
  refine ⟨hname, hdepth, ?_, fun i hi => ?_⟩
  · have hown := hall x.1.length (Nat.le_refl _)
    rw [← hdepth, List.getElem?_concat_length, hdepth, List.take_length] at hown
    simpa [Line.row] using hown
  · rw [← hall i (Nat.le_of_lt hi), List.getElem?_append_left (by omega)]
    rfl

/-! ## The outline determines the tree -/

mutual

/-- The tree with all kinds forgotten. -/
def bare : Tree → Tree
  | .node n _ ts => .node n .directory (bareAll ts)

def bareAll : List Tree → List Tree
  | [] => []
  | t :: ts => t.bare :: bareAll ts

end

/-- Depth and name of each node below a node of depth `d`. -/
def outline (d : Nat) (ts : List Tree) : List (Nat × String) :=
  (childNodes ts).map fun x => (d + x.1.length, x.2.name)

theorem outline_nil (d : Nat) : outline d [] = [] := rfl

theorem outline_cons (d : Nat) (n : String) (k : Kind) (cs ts : List Tree) :
    outline d (node n k cs :: ts) = (d + 1, n) :: (outline (d + 1) cs ++ outline d ts) := by
  have hdepth (x : List String × Tree) : d + (x.1.length + 1) = d + 1 + x.1.length := by omega
  simp [outline, childNodes, nodes, name, Function.comp_def, hdepth]

/-- What comes behind the nodes below depth `d` does not lie there itself. -/
def Ends (d : Nat) (rest : List (Nat × String)) : Prop := ∀ x ∈ rest.head?, x.1 ≤ d

theorem ends_nil (d : Nat) : Ends d [] := fun x hx => by cases hx

theorem ends_outline {d : Nat} {rest : List (Nat × String)} (h : Ends d rest) (ts : List Tree) :
    Ends (d + 1) (outline d ts ++ rest) := by
  cases ts with
  | nil => exact fun x hx => Nat.le_succ_of_le (h x hx)
  | cons t ts =>
    obtain ⟨n, k, cs⟩ := t
    rintro x hx
    rw [outline_cons] at hx
    obtain rfl : (d + 1, n) = x := by simpa using hx
    exact Nat.le_refl _

theorem outline_append_inj (ts : List Tree) : ∀ {us : List Tree} {d : Nat} {rest rest' : List (Nat × String)},
    Ends d rest → Ends d rest' → outline d ts ++ rest = outline d us ++ rest' →
      bareAll ts = bareAll us ∧ rest = rest' := by
  induction ts using forestInduction with
  | nil =>
    intro us d rest rest' hrest _ h
    cases us with
    | nil => exact ⟨rfl, h⟩
    | cons u us =>
      obtain ⟨m, j, ds⟩ := u
      rw [outline_nil, outline_cons, List.nil_append] at h
      have hdeep := hrest (d + 1, m) (by simp [h])
      omega
  | cons n k cs ts children later =>
    intro us d rest rest' hrest hrest' h
    cases us with
    | nil =>
      rw [outline_nil, outline_cons, List.nil_append] at h
      have hdeep := hrest' (d + 1, n) (by simp [← h])
      omega
    | cons u us =>
      obtain ⟨m, j, ds⟩ := u
      simp only [outline_cons, List.cons_append, List.append_assoc, List.cons.injEq, Prod.mk.injEq] at h
      obtain ⟨⟨_, rfl⟩, h⟩ := h
      obtain ⟨hchildren, h⟩ := children (ends_outline hrest ts) (ends_outline hrest' us) h
      obtain ⟨hlater, h⟩ := later hrest hrest' h
      exact ⟨by rw [bareAll, bareAll, bare, bare, hchildren, hlater], h⟩

theorem nodes_outline (t : Tree) :
    t.nodes.map (fun x => (x.1.length, x.2.name)) = (0, t.name) :: outline 0 t.children := by
  obtain ⟨n, k, ts⟩ := t
  simp [nodes, outline, name, children]

/-! ## Kinds are not shown -/

theorem bare_eq (t : Tree) : t.bare = .node t.name .directory (bareAll t.children) := by
  obtain ⟨n, k, ts⟩ := t
  rfl

theorem isEmpty_bareAll (ts : List Tree) : (bareAll ts).isEmpty = ts.isEmpty := by
  cases ts <;> rfl

theorem shown_bare (ts : List Tree) : ∀ above, (childLines above (bareAll ts)).map Line.shown =
    (childLines above ts).map Line.shown := by
  induction ts using forestInduction with
  | nil => exact fun _ => rfl
  | cons n k cs ts children later =>
    intro above
    simp only [bareAll, bare, childLines, lines, isEmpty_bareAll, List.map_append, List.map_cons, children, later]
    rfl

theorem draw_bare (t : Tree) : t.bare.draw false = t.draw false := by
  obtain ⟨n, k, ts⟩ := t
  have hlines : ((node n .directory (bareAll ts)).lines [] true).map Line.shown =
      ((node n k ts).lines [] true).map Line.shown := congrArg (_ :: ·) (shown_bare ts [true])
  have htexts := congrArg (List.map fun cs => String.ofList (cs ++ ['\n'])) hlines
  rw [List.map_map, List.map_map] at htexts
  have htext : (fun cs => String.ofList (cs ++ ['\n'])) ∘ Line.shown = Line.text false :=
    funext fun l => by rw [Function.comp_apply, ← toList_text, String.ofList_toList]
  rw [htext] at htexts
  exact congrArg String.join htexts

/-! ## The tree of a record -/

theorem name_of_mem_nodes {q : List String} {x : Tree} (h : (q ++ [s], x) ∈ t.nodes) : x.name = s := by
  induction q generalizing t with
  | nil =>
    obtain ⟨c, _, hname, hx⟩ := mem_nodes_cons.mp h
    rwa [mem_nodes_nil.mp hx]
  | cons r q ih =>
    obtain ⟨c, _, _, hx⟩ := mem_nodes_cons.mp h
    exact ih hx

theorem name_ofRecord (r : Record) (root : Path) : (ofRecord r root).name = root.display := by
  have hfold (es : List Entry) (t : Tree) : (es.foldl (fun t e => t.insert e.kind e.segments) t).name = t.name := by
    induction es generalizing t with
    | nil => rfl
    | cons e es ih => exact (ih _).trans (congrArg Prod.fst (label_insert e.segments t))
  exact hfold r.entries _

/-- No name goes over more than one line. -/
structure OneLine (r : Record) (root : Path) : Prop where
  root : '\n' ∉ root.display.toList
  names : ∀ e ∈ r.entries, ∀ s ∈ e.segments, '\n' ∉ s.toList

section
variable {r r' : Record} {root root' : Path}

theorem distinct_ofRecord (r : Record) (root : Path) : (ofRecord r root).Distinct :=
  (isTrie_of_represents (represents_ofRecord r root)).names

theorem newline_notMem_name {x : Tree} (h : OneLine r root) (hx : (p, x) ∈ (ofRecord r root).nodes) :
    '\n' ∉ x.name.toList := by
  obtain rfl | ⟨q, s, rfl⟩ := List.eq_nil_or_concat' p
  · rw [mem_nodes_nil.mp hx, name_ofRecord]
    exact h.root
  · have htrie := isTrie_of_represents (represents_ofRecord r root)
    obtain ⟨e, he, hbelow⟩ := (htrie.paths _ (by simp)).mp (mem_paths.mpr ⟨x, hx⟩)
    rw [name_of_mem_nodes hx]
    exact h.names e he s (hbelow.subset (by simp))

theorem readRows?_draw (h : OneLine r root) :
    readRows? ((ofRecord r root).draw false) = some (((ofRecord r root).lines [] true).map Line.row) := by
  refine readRows?_join fun l hl => ?_
  have hnames : (ofRecord r root).nodes.map (fun x => x.2.name) = ((ofRecord r root).lines [] true).map Line.name := by
    rw [← List.forall₂_eq_eq_eq, List.forall₂_map_left_iff, List.forall₂_map_right_iff]
    exact (shows_lines (distinct_ofRecord r root)).imp fun x l hl => hl.name.symm
  have hmem := List.mem_map_of_mem (f := Line.name) hl
  rw [← hnames] at hmem
  obtain ⟨x, hx, hname⟩ := List.mem_map.mp hmem
  rw [← hname]
  exact newline_notMem_name h hx

theorem readOutline?_draw (h : OneLine r root) : readOutline? ((ofRecord r root).draw false) =
    some ((ofRecord r root).nodes.map fun x => (x.1.length, x.2.name)) := by
  rw [readOutline?, readRows?_draw h, Option.map_some, List.map_map, Option.some_inj, ← List.forall₂_eq_eq_eq,
    List.forall₂_map_left_iff, List.forall₂_map_right_iff]
  refine List.Forall₂.flip ((shows_lines (distinct_ofRecord r root)).imp fun x l hl => ?_)
  exact Prod.ext hl.depth hl.name

/-- **A drawing determines its tree.** Where no name goes over more than one line, each line of the drawing is read as
the row that shows its node, in preorder, and depths and names are those of the tree. So two drawings are the same
exactly if the texts of the roots and the tries of names are. -/
theorem draw_reads (h : OneLine r root) (h' : OneLine r' root') :
    let t := ofRecord r root
    let t' := ofRecord r' root'
    (∃ rows, readRows? (t.draw false) = some rows ∧
      List.Forall₂ (fun x row => Row.Shows t x.1 x.2 row) t.nodes rows) ∧
    readOutline? (t.draw false) = some (t.nodes.map fun x => (x.1.length, x.2.name)) ∧
    (t.draw false = t'.draw false ↔ root.display = root'.display ∧ bareAll t.children = bareAll t'.children) := by
  intro t t'
  have houtline := readOutline?_draw h
  refine ⟨⟨_, readRows?_draw h, ?_⟩, houtline, fun hdraw => ?_, fun ⟨hroot, hbare⟩ => ?_⟩
  · rw [List.forall₂_map_right_iff]
    exact shows_lines (distinct_ofRecord r root)
  · have houtline' := readOutline?_draw h'
    rw [← hdraw, houtline, Option.some_inj, nodes_outline, nodes_outline, List.cons.injEq, Prod.mk.injEq,
      name_ofRecord, name_ofRecord] at houtline'
    obtain ⟨⟨_, hroot⟩, hbelow⟩ := houtline'
    have hbelow : outline 0 t.children ++ [] = outline 0 t'.children ++ [] := congrArg (· ++ []) hbelow
    exact ⟨hroot, (outline_append_inj t.children (ends_nil 0) (ends_nil 0) hbelow).1⟩
  · have hbare : t.bare = t'.bare := by rw [bare_eq, bare_eq, name_ofRecord, name_ofRecord, hroot, hbare]
    rw [← draw_bare t, hbare, draw_bare]

end

/-- Names that look like units and connectors, in a root that does too, are told from the drawing around them. -/
theorem draw_reads_imitations :
    let r := Record.mk [⟨.ofString "a/├── b/c", some ""⟩, ⟨.ofString "a/    d", none⟩, ⟨.ofString "│   e", some ""⟩]
    let r' := Record.mk [⟨.ofString "a", none⟩, ⟨.ofString "a/├── b", none⟩, ⟨.ofString "a/├── b/d", some ""⟩]
    let root := Path.ofString "└── /w"
    OneLine r root ∧ OneLine r' root ∧
      readOutline? ((ofRecord r root).draw false) =
        some [(0, "└── /w"), (1, "a"), (2, "├── b"), (3, "c"), (2, "    d"), (1, "│   e")] ∧
      (ofRecord r root).draw false ≠ (ofRecord r' root).draw false := by
  intro r r' root
  have h : OneLine r root := ⟨by decide +kernel, by decide +kernel⟩
  have h' : OneLine r' root := ⟨by decide +kernel, by decide +kernel⟩
  obtain ⟨_, houtline, hsame⟩ := draw_reads h h'
  have hnodes : (ofRecord r root).nodes.map (fun x => (x.1.length, x.2.name)) =
      [(0, "└── /w"), (1, "a"), (2, "├── b"), (3, "c"), (2, "    d"), (1, "│   e")] := by decide +kernel
  refine ⟨h, h', hnodes ▸ houtline, fun hdraw => ?_⟩
  have hnames := congrArg (List.map name) (hsame.mp hdraw).2
  exact absurd hnames (by decide +kernel)

end Tree

end EclipseProject.Staging
