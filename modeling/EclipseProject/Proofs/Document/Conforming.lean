import EclipseProject.Document.Description
import EclipseProject.Proofs.Document.Markup

/-!
# What a conforming reader finds

The two list documents and the description, as the general reader of markup reads them. A list keeps its entries and
their kinds as long as XML admits the characters of its values, but each break in a value becomes a blank. The name in a
description is text, where only line ends are changed.
-/

namespace EclipseProject

namespace Xml

def declarationPiece : Piece :=
  ⟨[], .declaration, "xml", [⟨"version", "1.0".toList⟩, ⟨"encoding", "UTF-8".toList⟩]⟩

theorem map_declarationPiece : declarationPiece.map lineEnds flatten = declarationPiece := by decide +kernel

theorem named_declarationPiece : declarationPiece.Named := by
  constructor <;> decide +kernel

/-! ## Lists -/

/-- A root with empty elements, one a line, behind a declaration or at the beginning of the document. -/
def listing (declared : Bool) (root element : String) (rows : List (List Attribute)) : List Piece :=
  (if declared then [declarationPiece] else []) ++
    ⟨if declared then ['\n'] else [], .start, root, []⟩ ::
      (rows.map (Piece.mk "\n  ".toList .empty element) ++
        [⟨if rows = [] then "\n\n".toList else "\n".toList, .stop, root, []⟩])

/-- The attributes of the elements of that name, where they stand in the root itself. -/
def rows? (root element text : String) : Option (List (List Attribute)) := do
  let tags ← read text
  return (tags.filter fun t => t.1 = [element, root] ∧ t.2.form ≠ .stop).map (·.2.attributes)

variable {root element : String}

theorem map_listing (declared : Bool) (rows : List (List Attribute)) :
    (listing declared root element rows).map (Piece.map lineEnds flatten) =
      listing declared root element (rows.map (·.map fun a => ⟨a.name, flatten a.value⟩)) := by
  have hfront : (if declared then [declarationPiece] else []).map (Piece.map lineEnds flatten) =
      if declared then [declarationPiece] else [] := by
    cases declared
    · rfl
    · exact congrArg (· :: []) map_declarationPiece
  rw [listing, List.map_append, hfront]
  cases declared <;> cases rows <;> simp [listing, Piece.map, lineEnds]

theorem walk_rows (front back : List Char) (rows : List (List Attribute)) :
    walk [root] (rows.map (Piece.mk front .empty element) ++ [⟨back, .stop, root, []⟩]) =
      some (rows.map (fun row => ([element, root], ⟨front, .empty, element, row⟩)) ++
        [([root], ⟨back, .stop, root, []⟩)]) := by
  induction rows with
  | nil => simp [walk, Piece.step, Piece.path]
  | cons row rows ih => simp [walk, Piece.step, Piece.path, ih]

theorem document?_listing (declared : Bool) (rows : List (List Attribute)) :
    ∃ first last : Piece, last.form = .stop ∧ document? (listing declared root element rows) =
      some (([root], first) :: (rows.map (fun row => ([element, root], ⟨"\n  ".toList, .empty, element, row⟩)) ++
        [([root], last)])) := by
  have hdeclaration : declarationPiece.isDeclaration = true := by decide +kernel
  have hblank : isSpace '\n' = true := by decide
  refine ⟨⟨if declared then ['\n'] else [], .start, root, []⟩,
    ⟨if rows = [] then "\n\n".toList else "\n".toList, .stop, root, []⟩, rfl, ?_⟩
  cases declared with
  | false => simp [document?, listing, Piece.isDeclaration, walk, Piece.step, Piece.path, walk_rows]
  | true => simp [document?, listing, hdeclaration, hblank, walk, Piece.step, Piece.path, walk_rows]

theorem named_listing (declared : Bool) {rows : List (List Attribute)} (hroot : isName root)
    (helement : isName element)
    (hrows : ∀ row ∈ rows, (∀ a ∈ row, isName a.name) ∧ (row.map Attribute.name).Nodup) :
    ∀ p ∈ listing declared root element rows, p.Named := by
  have hbare : ∀ front form, (Piece.mk front form root []).Named := fun _ _ => ⟨hroot, by simp, by simp⟩
  have hline : ∀ row ∈ rows, (Piece.mk "\n  ".toList .empty element row).Named :=
    fun row hrow => ⟨helement, (hrows row hrow).1, (hrows row hrow).2⟩
  intro p hp
  simp only [listing, List.mem_append, List.mem_cons, List.mem_map, List.not_mem_nil, or_false] at hp
  rcases hp with hp | rfl | ⟨row, hrow, rfl⟩ | rfl
  · split at hp
    · exact List.mem_singleton.mp hp ▸ named_declarationPiece
    · exact absurd hp List.not_mem_nil
  · exact hbare _ _
  · exact hline row hrow
  · exact hbare _ _

theorem isReadable_listing (declared : Bool) (rows : List (List Attribute)) :
    (listing declared root element rows).all Piece.isReadable = rows.all (·.all (·.value.all isChar)) := by
  have hfront : (if declared then [declarationPiece] else []).all Piece.isReadable = true := by
    cases declared <;> decide +kernel
  have hblank : isChar '\n' = true ∧ isChar ' ' = true := by decide
  rw [listing, List.all_append, hfront, Bool.true_and]
  cases declared <;> cases rows <;> simp [Piece.isReadable, hblank, List.all_map, Function.comp_def]

theorem rows?_write_listing (declared : Bool) {rows : List (List Attribute)} (hroot : isName root)
    (helement : isName element)
    (hrows : ∀ row ∈ rows, (∀ a ∈ row, isName a.name) ∧ (row.map Attribute.name).Nodup) :
    rows? root element (write (listing declared root element rows)) =
      if rows.all (·.all (·.value.all isChar)) then some (rows.map (·.map fun a => ⟨a.name, flatten a.value⟩))
      else none := by
  obtain ⟨first, last, hlast, hdocument⟩ := @document?_listing root element declared
    (rows.map (·.map fun a => ⟨a.name, flatten a.value⟩))
  rw [rows?, read_write (named_listing declared hroot helement hrows), isReadable_listing, map_listing, hdocument]
  split
  · simp [List.filter_map, Function.comp_def]
  · rfl

/-! ## Layouts in tags -/

/-- A value that is written and read as it is. -/
def Plain (value : List Char) : Prop := escaped value = value ∧ flatten value = value ∧ value.all isChar

instance (value : List Char) : Decidable (Plain value) :=
  inferInstanceAs (Decidable (escaped value = value ∧ flatten value = value ∧ value.all isChar))

namespace Layout

variable {κ ε : Type} {L : Layout κ ε}

/-- A layout is written in tags: behind its prologue, and with these attributes behind the value. -/
structure Tagged (L : Layout κ ε) where
  declared : Bool
  others : List Attribute
  prologue_eq : L.prologue = if declared then declaration ++ "\n" else ""
  others_eq : L.others.toList = others.flatMap Attribute.print
  isName_root : isName L.root
  isName_element : isName L.element
  isName_attributes : ∀ n ∈ "kind" :: L.key :: others.map Attribute.name, isName n
  nodup_attributes : ("kind" :: L.key :: others.map Attribute.name).Nodup
  plain_word : ∀ k, Plain (L.word k).toList
  plain_others : ∀ a ∈ others, Plain a.value
  value_entry : ∀ k v, L.value (L.entry k v) = v

namespace Tagged

def row (T : L.Tagged) (e : ε) : List Attribute :=
  ⟨"kind", (L.word (L.kind e)).toList⟩ :: ⟨L.key, (L.value e).toList⟩ :: T.others

theorem named_rows (T : L.Tagged) {es : List ε} :
    ∀ row ∈ es.map T.row, (∀ a ∈ row, isName a.name) ∧ (row.map Attribute.name).Nodup := by
  intro row hrow
  obtain ⟨e, _, rfl⟩ := List.mem_map.mp hrow
  have hnames : (T.row e).map Attribute.name = "kind" :: L.key :: T.others.map Attribute.name := rfl
  exact ⟨fun a ha => T.isName_attributes _ (hnames ▸ List.mem_map_of_mem ha), hnames ▸ T.nodup_attributes⟩

theorem toList_attributeText (key value : String) :
    (attributeText key value).toList = (Attribute.mk key value.toList).print := by
  simp [attributeText, Attribute.print]

theorem print_row (T : L.Tagged) (front : List Char) (e : ε) :
    ((Piece.mk front .empty L.element (T.row e)).map escaped escaped).print =
      escaped front ++ (L.elementText e).toList := by
  have hothers : T.others.map (fun a => Attribute.mk a.name (escaped a.value)) = T.others := by
    conv_rhs => rw [← List.map_id T.others]
    exact List.map_congr_left fun a ha => by rw [(T.plain_others a ha).1, id]
  simp [Piece.map, Piece.print, row, elementText, hothers, (T.plain_word _).1, toList_attributeText, toList_escape,
    T.others_eq, Form.lead, Form.trail]

theorem body_framed (xs : List String) : '\n' :: ((body xs).toList ++ ['\n']) =
    xs.flatMap (fun x => '\n' :: ' ' :: ' ' :: x.toList) ++ if xs = [] then ['\n', '\n'] else ['\n'] := by
  cases xs with
  | nil => simp [body]
  | cons x xs =>
    induction xs generalizing x with
    | nil => simp [body_singleton]
    | cons y ys ih =>
      calc '\n' :: ((body (x :: y :: ys)).toList ++ ['\n'])
        _ = '\n' :: ' ' :: ' ' :: (x.toList ++ '\n' :: ((body (y :: ys)).toList ++ ['\n'])) := by
          simp [body_cons_cons]
        _ = _ := by
          rw [ih y]
          simp

theorem write_eq (T : L.Tagged) (es : List ε) :
    L.write es = Xml.write (listing T.declared L.root L.element (es.map T.row)) := by
  apply String.toList_inj.mp
  have hfront : ((if T.declared then [declarationPiece] else []).map (Piece.map escaped escaped)).flatMap Piece.print ++
      escaped (if T.declared then ['\n'] else []) = L.prologue.toList := by
    rw [T.prologue_eq]
    cases T.declared <;> decide +kernel
  have hindent : escaped "\n  ".toList = ['\n', ' ', ' '] := by decide
  have hrows : ((es.map T.row).map (Piece.mk "\n  ".toList .empty L.element)).flatMap
      (fun p => (p.map escaped escaped).print) =
      (es.map L.elementText).flatMap fun x => '\n' :: ' ' :: ' ' :: x.toList := by
    simp only [List.flatMap_map, print_row, hindent, List.cons_append, List.nil_append]
  have hback : escaped (if es.map T.row = [] then "\n\n".toList else "\n".toList) =
      if es.map L.elementText = [] then ['\n', '\n'] else ['\n'] := by
    have hlf : escaped ['\n', '\n'] = ['\n', '\n'] ∧ escaped ['\n'] = ['\n'] := by decide
    cases es <;> simp [hlf]
  have hopening : L.opening.toList = L.prologue.toList ++ '<' :: (L.root.toList ++ ['>', '\n']) := by
    simp [opening]
  have hclosing : L.closing.toList = '\n' :: '<' :: '/' :: (L.root.toList ++ ['>']) := by
    simp [closing]
  have hframed := body_framed (es.map L.elementText)
  rw [← hrows, ← hback] at hframed
  calc (L.write es).toList
    _ = L.prologue.toList ++
        '<' :: (L.root.toList ++ '>' :: '\n' :: ((body (es.map L.elementText)).toList ++ ['\n'])) ++
        '<' :: '/' :: (L.root.toList ++ ['>']) := by simp [write, hopening, hclosing]
    _ = _ := by
      rw [hframed, ← hfront, Xml.write, String.toList_ofList, listing]
      simp only [List.map_append, List.map_cons, List.map_nil, List.flatMap_append, List.flatMap_cons,
        List.flatMap_nil, List.flatMap_map, List.append_assoc, List.append_nil, List.cons_append]
      simp [Piece.map, Piece.print, Form.lead, Form.trail]

end Tagged

/-! ## Reading entries -/

def valueOf? (name : String) (row : List Attribute) : Option (List Char) :=
  (row.find? (·.name = name)).map Attribute.value

def ofRow? (L : Layout κ ε) (row : List Attribute) : Option ε := do
  let kind ← L.kind? (.ofList (← valueOf? "kind" row))
  let value ← valueOf? L.key row
  return L.entry kind (.ofList value)

def entries? (L : Layout κ ε) (text : String) : Option (List ε) := do
  (← rows? L.root L.element text).mapM L.ofRow?

/-- An entry with one blank for each break in its value. -/
def flattened (L : Layout κ ε) (e : ε) : ε := L.entry (L.kind e) (.ofList (flatten (L.value e).toList))

namespace Tagged

theorem ofRow?_row (T : L.Tagged) (e : ε) :
    L.ofRow? ((T.row e).map fun a => ⟨a.name, flatten a.value⟩) = some (L.flattened e) := by
  have hkey : "kind" ≠ L.key := fun h => (List.nodup_cons.mp T.nodup_attributes).1 (h ▸ List.mem_cons_self ..)
  simp [ofRow?, valueOf?, row, hkey, (T.plain_word _).2.1, L.kind?_word, flattened]

theorem all_isChar_row (T : L.Tagged) (e : ε) :
    (T.row e).all (·.value.all isChar) = (L.value e).toList.all isChar := by
  have hothers : T.others.all (·.value.all isChar) = true :=
    List.all_eq_true.mpr fun a ha => (T.plain_others a ha).2.2
  rw [row, List.all_cons, List.all_cons, hothers, (T.plain_word _).2.2, Bool.true_and, Bool.and_true]

/-- Reading needs that XML admits all characters of the values, and nothing else. -/
theorem entries?_write (T : L.Tagged) (es : List ε) :
    L.entries? (L.write es) =
      if es.all fun e => (L.value e).toList.all isChar then some (es.map L.flattened) else none := by
  have hchars : (es.map T.row).all (·.all (·.value.all isChar)) = es.all fun e => (L.value e).toList.all isChar := by
    simp only [List.all_map, Function.comp_def, all_isChar_row]
  rw [T.write_eq, entries?, rows?_write_listing T.declared T.isName_root T.isName_element T.named_rows, hchars]
  split
  · simp only [Option.bind_eq_bind, Option.bind_some, List.map_map, List.mapM_map]
    exact Text.mapM_eq_some_map fun e _ => T.ofRow?_row e
  · rfl

theorem flattened_eq_self_iff (T : L.Tagged) (e : ε) :
    L.flattened e = e ↔ ∀ c ∈ (L.value e).toList, isBreak c = false := by
  rw [← flatten_eq_self_iff]
  constructor
  · intro h
    have hvalue := congrArg (fun e => (L.value e).toList) h
    simpa only [flattened, T.value_entry, String.toList_ofList] using hvalue
  · intro h
    rw [flattened, h, String.ofList_toList, L.entry_kind_value]

theorem entries?_write_eq_some_iff (T : L.Tagged) (es : List ε) :
    L.entries? (L.write es) = some es ↔ ∀ e ∈ es, ∀ c ∈ (L.value e).toList, isChar c = true ∧ isBreak c = false := by
  have hchars : (es.all fun e => (L.value e).toList.all isChar) = true ↔
      ∀ e ∈ es, ∀ c ∈ (L.value e).toList, isChar c = true := by simp
  have hbreaks : es.map L.flattened = es ↔ ∀ e ∈ es, ∀ c ∈ (L.value e).toList, isBreak c = false := by
    have hmap := List.map_inj_left (l := es) (f := L.flattened) (g := id)
    rw [List.map_id] at hmap
    exact hmap.trans (forall₂_congr fun e _ => T.flattened_eq_self_iff e)
  rw [T.entries?_write, Option.ite_none_right_eq_some, Option.some_inj, hchars, hbreaks]
  simp only [forall_and]

end Tagged

end Layout

end Xml

namespace Classpath

def tagged : layout.Tagged where
  declared := true
  others := []
  prologue_eq := rfl
  others_eq := rfl
  isName_root := by decide +kernel
  isName_element := by decide +kernel
  isName_attributes := by decide +kernel
  nodup_attributes := by decide +kernel
  plain_word k := by cases k <;> decide +kernel
  plain_others := by simp
  value_entry _ _ := rfl

end Classpath

namespace Factorypath

def tagged : layout.Tagged where
  declared := false
  others := [⟨"enabled", "true".toList⟩, ⟨"runInBatchMode", "false".toList⟩]
  prologue_eq := rfl
  others_eq := by decide +kernel
  isName_root := by decide +kernel
  isName_element := by decide +kernel
  isName_attributes := by decide +kernel
  nodup_attributes := by decide +kernel
  plain_word k := by cases k <;> decide +kernel
  plain_others := by decide +kernel
  value_entry _ _ := rfl

end Factorypath

namespace Description

open Xml

/-! ## The description in tags -/

/-- An element, with the text in front of its tags. -/
def element (front : List Char) (name : String) (content : List Piece) (back : List Char) : List Piece :=
  ⟨front, .start, name, []⟩ :: (content ++ [⟨back, .stop, name, []⟩])

def indent (n : Nat) : List Char := '\n' :: List.replicate n ' '

/-- An element around elements, on lines of its own. -/
def branch (n : Nat) (name : String) (content : List Piece) : List Piece := element (indent n) name content (indent n)

/-- An element around a text. -/
def leaf (n : Nat) (name text : String) : List Piece := element (indent n) name [] text.toList

def builder (name : String) : List Piece := branch 8 "buildCommand" (leaf 12 "name" name ++ branch 12 "arguments" [])

def behindName : List Piece :=
  branch 4 "comment" [] ++ branch 4 "projects" [] ++
    branch 4 "buildSpec" (builder "org.python.pydev.PyDevBuilder" ++ builder "org.eclipse.jdt.core.javabuilder") ++
    branch 4 "natures"
      (leaf 8 "nature" "org.eclipse.jdt.core.javanature" ++ leaf 8 "nature" "org.python.pydev.pythonNature")

def markup (name : List Char) : List Piece :=
  declarationPiece ::
    element (indent 0) "projectDescription" (element (indent 4) "name" [] name ++ behindName) (indent 0)

theorem beforeName_eq : beforeName.toList = ([declarationPiece, ⟨indent 0, .start, "projectDescription", []⟩,
    ⟨indent 4, .start, "name", []⟩].map (Piece.map escaped escaped)).flatMap Piece.print := by decide +kernel

set_option maxRecDepth 8000 in
theorem afterName_eq : afterName = .ofList ("</name>".toList ++
    ((behindName ++ [Piece.mk (indent 0) .stop "projectDescription" []]).map
      (Piece.map escaped escaped)).flatMap Piece.print) := by
  have hlist : afterName = String.ofList _ := rfl
  rw [hlist]
  refine congrArg String.ofList ?_
  decide +kernel

theorem document_eq_write (name : String) : document name = Xml.write (markup name.toList) := by
  apply String.toList_inj.mp
  rw [document, String.toList_append, String.toList_append, beforeName_eq, afterName_eq, Xml.write]
  simp [markup, element, toList_escape, Piece.map, Piece.print, Form.lead, Form.trail]

/-! ## Nesting -/

/-- Tags that close each other, in whatever element they stand. -/
def Balanced (ps : List Piece) : Prop :=
  ∀ around ≠ [], ∀ rest tags, walk around rest = some tags → ∃ inner, walk around (ps ++ rest) = some (inner ++ tags)

theorem balanced_nil : Balanced [] := fun _ _ _ _ h => ⟨[], h⟩

theorem balanced_append {ps qs : List Piece} (hps : Balanced ps) (hqs : Balanced qs) : Balanced (ps ++ qs) := by
  intro around hne rest tags h
  obtain ⟨inner, hinner⟩ := hqs around hne rest tags h
  obtain ⟨outer, houter⟩ := hps around hne (qs ++ rest) (inner ++ tags) hinner
  exact ⟨outer ++ inner, by rw [List.append_assoc, List.append_assoc]; exact houter⟩

theorem walk_start (front : List Char) (name : String) (around : List String) (ps : List Piece) :
    walk around (⟨front, .start, name, []⟩ :: ps) =
      (walk (name :: around) ps).map ((name :: around, ⟨front, .start, name, []⟩) :: ·) := by
  cases hps : walk (name :: around) ps <;> simp [walk, Piece.step, Piece.path, hps]

theorem walk_stop (back : List Char) (name : String) {around : List String} (hne : around ≠ []) (ps : List Piece) :
    walk (name :: around) (⟨back, .stop, name, []⟩ :: ps) =
      (walk around ps).map ((name :: around, ⟨back, .stop, name, []⟩) :: ·) := by
  cases hps : walk around ps <;> simp [walk, Piece.step, Piece.path, hne, hps]

theorem balanced_element {content : List Piece} (h : Balanced content) (front : List Char) (name : String)
    (back : List Char) : Balanced (element front name content back) := by
  intro around hne rest tags hrest
  have hstop := walk_stop back name hne rest
  rw [hrest, Option.map_some] at hstop
  obtain ⟨inner, hinner⟩ := h (name :: around) (by simp) _ _ hstop
  refine ⟨(name :: around, ⟨front, .start, name, []⟩) :: (inner ++ [(name :: around, ⟨back, .stop, name, []⟩)]), ?_⟩
  rw [element, List.cons_append, List.append_assoc, List.singleton_append, walk_start, hinner]
  simp

theorem balanced_branch {content : List Piece} (h : Balanced content) (n : Nat) (name : String) :
    Balanced (branch n name content) := balanced_element h _ _ _

theorem balanced_leaf (n : Nat) (name text : String) : Balanced (leaf n name text) :=
  balanced_element balanced_nil _ _ _

theorem balanced_builder (name : String) : Balanced (builder name) :=
  balanced_branch (balanced_append (balanced_leaf _ _ _) (balanced_branch balanced_nil _ _)) _ _

theorem balanced_behindName : Balanced behindName := by
  have hbuilders := balanced_append (balanced_builder "org.python.pydev.PyDevBuilder")
    (balanced_builder "org.eclipse.jdt.core.javabuilder")
  have hnatures := balanced_append (balanced_leaf 8 "nature" "org.eclipse.jdt.core.javanature")
    (balanced_leaf 8 "nature" "org.python.pydev.pythonNature")
  have hfront := balanced_append (balanced_branch balanced_nil 4 "comment") (balanced_branch balanced_nil 4 "projects")
  exact balanced_append (balanced_append hfront (balanced_branch hbuilders 4 "buildSpec"))
    (balanced_branch hnatures 4 "natures")

/-! ## Reading the name -/

/-- The text of the first name in a description itself. It has no elements in it. -/
def name? (text : String) : Option String := do
  let tags ← Xml.read text
  match tags.dropWhile (·.1 ≠ ["name", "projectDescription"]) with
  | first :: last :: _ =>
    if first.2.form = .start ∧ last.1 = first.1 ∧ last.2.form = .stop then some (.ofList last.2.text) else none
  | _ => none

section Element

variable (front back : List Char) {name : String} {content : List Piece}

theorem map_element : (element front name content back).map (Piece.map lineEnds flatten) =
    element (lineEnds front) name (content.map (Piece.map lineEnds flatten)) (lineEnds back) := by
  simp [element, Piece.map]

theorem named_element (hname : isName name) (h : ∀ p ∈ content, p.Named) :
    ∀ p ∈ element front name content back, p.Named := by
  have hbare : ∀ text form, (Piece.mk text form name []).Named := fun _ _ => ⟨hname, by simp, by simp⟩
  intro p hp
  simp only [element, List.mem_cons, List.mem_append, List.not_mem_nil, or_false] at hp
  rcases hp with rfl | hp | rfl
  · exact hbare _ _
  · exact h p hp
  · exact hbare _ _

theorem isReadable_element : (element front name content back).all Piece.isReadable =
    (front.all isChar && (content.all Piece.isReadable && back.all isChar)) := by
  simp [element, Piece.isReadable]

end Element

theorem map_markup (name : List Char) : (markup name).map (Piece.map lineEnds flatten) = markup (lineEnds name) := by
  have hbehind : behindName.map (Piece.map lineEnds flatten) = behindName := by decide +kernel
  have hindent : lineEnds (indent 0) = indent 0 ∧ lineEnds (indent 4) = indent 4 := by decide
  rw [markup, List.map_cons, map_declarationPiece, map_element, List.map_append, map_element, hbehind, List.map_nil,
    hindent.1, hindent.2, markup]

theorem named_markup (name : List Char) : ∀ p ∈ markup name, p.Named := by
  have hnames : ∀ p ∈ behindName, isName p.name ∧ p.attributes = [] := by decide +kernel
  have hbehind : ∀ p ∈ behindName, p.Named := by
    intro p hp
    obtain ⟨hname, hattributes⟩ := hnames p hp
    exact ⟨hname, by simp [hattributes], by simp [hattributes]⟩
  have hname := named_element (indent 4) name (show isName "name" by decide +kernel) (List.forall_mem_nil _)
  have hroot := named_element (indent 0) (indent 0) (show isName "projectDescription" by decide +kernel)
    (List.forall_mem_append.mpr ⟨hname, hbehind⟩)
  exact List.forall_mem_cons.mpr ⟨named_declarationPiece, hroot⟩

theorem isReadable_markup (name : List Char) : (markup name).all Piece.isReadable = name.all isChar := by
  have hbehind : behindName.all Piece.isReadable = true := by decide +kernel
  have hdeclaration : declarationPiece.isReadable = true := by decide +kernel
  have hindent : (indent 0).all isChar = true ∧ (indent 4).all isChar = true := by decide
  rw [markup, List.all_cons, hdeclaration, isReadable_element, List.all_append, isReadable_element, hbehind, hindent.1,
    hindent.2, List.all_nil]
  simp only [Bool.true_and, Bool.and_true]

theorem document?_markup (name : List Char) :
    ∃ (root first : Piece) (more : List (List String × Piece)), first.form = .start ∧ document? (markup name) =
      some ((["projectDescription"], root) :: (["name", "projectDescription"], first) ::
        (["name", "projectDescription"], ⟨name, .stop, "name", []⟩) :: more) := by
  have hdeclaration : declarationPiece.isDeclaration = true := by decide +kernel
  have hspace : (indent 0).all isSpace = true := by decide
  have hend : walk ["projectDescription"] [⟨indent 0, .stop, "projectDescription", []⟩] =
      some [(["projectDescription"], ⟨indent 0, .stop, "projectDescription", []⟩)] := by
    simp [walk, Piece.step, Piece.path]
  obtain ⟨inner, hinner⟩ := balanced_behindName ["projectDescription"] (by simp) _ _ hend
  refine ⟨⟨indent 0, .start, "projectDescription", []⟩, ⟨indent 4, .start, "name", []⟩,
    inner ++ [(["projectDescription"], ⟨indent 0, .stop, "projectDescription", []⟩)], rfl, ?_⟩
  rw [markup, document?]
  simp only [List.head?_cons, Option.any_some, hdeclaration, if_true, List.tail_cons, element, hspace, Option.all_some,
    walk_start, List.nil_append, List.cons_append]
  rw [walk_stop _ _ (by simp), hinner]
  simp

theorem name?_document (name : String) :
    name? (document name) = if name.toList.all isChar then some (.ofList (lineEnds name.toList)) else none := by
  obtain ⟨root, first, more, hstart, hdocument⟩ := document?_markup (lineEnds name.toList)
  rw [name?, document_eq_write, read_write (named_markup _), isReadable_markup, map_markup, hdocument]
  split
  · simp [hstart]
  · rfl

theorem name?_document_eq_some_iff (name : String) :
    name? (document name) = some name ↔ ∀ c ∈ name.toList, isChar c = true ∧ c ≠ '\r' := by
  have hsame : String.ofList (lineEnds name.toList) = name ↔ '\r' ∉ name.toList := by
    rw [← lineEnds_eq_self_iff, ← String.toList_inj, String.toList_ofList]
  rw [name?_document, Option.ite_none_right_eq_some, Option.some_inj, hsame, List.all_eq_true, ← List.forall_mem_ne']
  simp only [forall_and, ne_eq]

end Description

/-- **What a conforming reader keeps.** The lists are read as they were written exactly if XML admits each character of
their values and none of them is a tabulator or part of a line end. As long as XML admits the characters no entry is
lost, and each break in a value has become a blank. A name is kept exactly if XML admits its characters and it has no
carriage return. -/
theorem Xml.conforming_reading (cs : List Classpath.Entry) (fs : List Factorypath.Entry) (name : String) :
    (Classpath.layout.entries? (Classpath.document cs) = some cs ↔
      ∀ e ∈ cs, ∀ c ∈ e.path.toList, isChar c = true ∧ isBreak c = false) ∧
    Classpath.layout.entries? (Classpath.document cs) =
      (if cs.all fun e => e.path.toList.all isChar then
        some (cs.map fun e => ⟨e.kind, .ofList (flatten e.path.toList)⟩) else none) ∧
    (Factorypath.layout.entries? (Factorypath.document fs) = some fs ↔
      ∀ e ∈ fs, ∀ c ∈ e.id.toList, isChar c = true ∧ isBreak c = false) ∧
    Factorypath.layout.entries? (Factorypath.document fs) =
      (if fs.all fun e => e.id.toList.all isChar then
        some (fs.map fun e => ⟨e.kind, .ofList (flatten e.id.toList)⟩) else none) ∧
    (Description.name? (Description.document name) = some name ↔
      ∀ c ∈ name.toList, isChar c = true ∧ c ≠ '\r') := by
  rw [Classpath.document_eq_write, Factorypath.document_eq_write]
  refine ⟨Classpath.tagged.entries?_write_eq_some_iff cs, Classpath.tagged.entries?_write cs,
    Factorypath.tagged.entries?_write_eq_some_iff fs, Factorypath.tagged.entries?_write fs, ?_⟩
  exact Description.name?_document_eq_some_iff name

example : Classpath.layout.entries? (Classpath.document [⟨.source, "a\r\nb\tc"⟩]) = some [⟨.source, "a b c"⟩] := by
  decide +kernel

end EclipseProject
