import EclipseProject.Document.Description
import EclipseProject.Proofs.Document.Reading

/-!
# The name in a description

A description is a template with one place, filled in one pass: what is put in is not read as a template again. The
place is found in the document between the first tag and the first closing tag of a name. Nothing in an escaped name is
taken for either, so the place holds the name and all around it is the same for all names.
-/

namespace EclipseProject

namespace Text

/-! ## Cutting at a mark -/

/-- What stands before the first occurrence of the mark, and what stands behind it. -/
def cut? (mark : List Char) : List Char → Option (List Char × List Char)
  | [] => if mark = [] then some ([], []) else none
  | c :: cs =>
    if mark <+: c :: cs then some ([], (c :: cs).drop mark.length)
    else (cut? mark cs).map fun x => (c :: x.1, x.2)

/-- No occurrence of the mark begins in the text, whatever comes behind it. -/
def Apart (mark cs : List Char) : Prop := ∀ rest ∈ cs.tails, rest ≠ [] → ¬ rest <+: mark ∧ ¬ mark <+: rest

instance (mark cs : List Char) : Decidable (Apart mark cs) :=
  inferInstanceAs (Decidable (∀ rest ∈ cs.tails, rest ≠ [] → ¬ rest <+: mark ∧ ¬ mark <+: rest))

variable {mark cs : List Char} {c : Char}

theorem cut?_append (h : Apart mark cs) (behind : List Char) :
    cut? mark (cs ++ behind) = (cut? mark behind).map fun x => (cs ++ x.1, x.2) := by
  induction cs with
  | nil => simp
  | cons c cs ih =>
    obtain ⟨hshort, hlong⟩ := h (c :: cs) (by simp) (by simp)
    have hno : ¬ mark <+: c :: (cs ++ behind) := fun hmark =>
      (List.prefix_or_prefix_of_prefix hmark (List.prefix_append (c :: cs) behind)).elim hlong hshort
    have hcs : Apart mark cs := fun rest hrest => h rest (by simp [hrest])
    rw [List.cons_append, cut?, if_neg hno, ih hcs, Option.map_map]
    rfl

theorem cut?_mark (hm : mark ≠ []) (behind : List Char) : cut? mark (mark ++ behind) = some ([], behind) := by
  obtain ⟨c, rest, rfl⟩ := List.exists_cons_of_ne_nil hm
  rw [List.cons_append, cut?, if_pos ⟨behind, rfl⟩]
  simp

theorem cut?_append_mark (h : Apart mark cs) (hm : mark ≠ []) (behind : List Char) :
    cut? mark (cs ++ (mark ++ behind)) = some (cs, behind) := by
  rw [cut?_append h, cut?_mark hm, Option.map_some, List.append_nil]

/-- A mark does not begin where its first character is not. -/
theorem apart_of_notMem (h : c ∉ cs) : Apart (c :: mark) cs := by
  intro rest hrest hne
  obtain ⟨d, rest, rfl⟩ := List.exists_cons_of_ne_nil hne
  have hd : c ≠ d := fun e => h (e ▸ ((List.mem_tails _ _).mp hrest).subset (List.mem_cons_self ..))
  simp [hd, Ne.symm hd]

end Text

/-! ## A template with one place -/

namespace Template

def place (v : String) : String := "\x7b\x7b " ++ v ++ " \x7d\x7d"

/-- What a description relies on: a template is gone over once. What stands around a place is copied, and the value of
its variable is put in as it is. -/
def OnePass {ε : Type} (render : String → String → String → Except ε String) (v : String) : Prop :=
  ∀ before behind value : String, '{' ∉ before.toList → '{' ∉ behind.toList →
    render (before ++ place v ++ behind) v value = .ok (before ++ value ++ behind)

/-- Fills the first place of the variable. A template without one is left as it is. -/
def render (template v value : String) : Except Empty String :=
  match Text.cut? (place v).toList template.toList with
  | some (before, behind) => .ok (.ofList (before ++ value.toList ++ behind))
  | none => .ok template

theorem onePass_render (v : String) : OnePass render v := by
  intro before behind value hbefore _
  have hplace : (place v).toList = '{' :: ("\x7b " ++ v ++ " \x7d\x7d").toList := by simp [place]
  have hcut : Text.cut? (place v).toList (before ++ place v ++ behind).toList =
      some (before.toList, behind.toList) := by
    rw [String.toList_append, String.toList_append, List.append_assoc]
    refine Text.cut?_append_mark ?_ (by simp [hplace]) _
    rw [hplace]
    exact Text.apart_of_notMem hbefore
  rw [render, hcut]
  simp [String.append_assoc]

end Template

namespace Description

theorem document_inj {n n' : String} : document n = document n' ↔ n = n' := by
  constructor
  · intro h
    simp only [document, String.append_left_inj, String.append_right_inj] at h
    exact Xml.escape_injective h
  · rintro rfl
    rfl

/-! ## The place of the name -/

def template : String := beforeName ++ Template.place "project_name" ++ afterName

def openingTag : List Char := "<name>".toList

def closingTag : List Char := "</name>".toList

-- The text is long. Its characters are read off the literal, since `toList` would have to go over its bytes.
set_option maxRecDepth 8000 in
theorem afterName_chars : '{' ∉ afterName.toList ∧ closingTag <+: afterName.toList := by
  have hlist : afterName = String.ofList _ := rfl
  rw [hlist, String.toList_ofList]
  decide +kernel

theorem render_template {ε : Type} {render : String → String → String → Except ε String}
    (h : Template.OnePass render "project_name") (name : String) :
    render template "project_name" (Xml.escape name) = .ok (document name) :=
  h beforeName afterName (Xml.escape name) (by decide +kernel) afterName_chars.1

/-- A text around its first name. -/
structure Slot where
  before : List Char
  inside : List Char
  behind : List Char
  deriving DecidableEq, Repr

/-- The inside lies between the first tag and the first closing tag. -/
def slot? (text : String) : Option Slot := do
  let (front, behind) ← Text.cut? closingTag text.toList
  let (before, inside) ← Text.cut? openingTag front
  return ⟨before, inside, behind⟩

/-- The same text around another name. -/
def Slot.fill (s : Slot) (name : String) : String :=
  .ofList (s.before ++ openingTag ++ (Xml.escape name).toList ++ closingTag ++ s.behind)

def beforeSlot : List Char := (Xml.declaration ++ "\n<projectDescription>\n    ").toList

def behindSlot : List Char := afterName.toList.drop closingTag.length

theorem toList_beforeName : beforeName.toList = beforeSlot ++ openingTag := by decide +kernel

theorem toList_afterName : afterName.toList = closingTag ++ behindSlot :=
  (List.prefix_iff_eq_append.mp afterName_chars.2).symm

theorem toList_document (name : String) : (document name).toList =
    beforeName.toList ++ ((Xml.escape name).toList ++ (closingTag ++ behindSlot)) := by
  rw [document, String.toList_append, String.toList_append, toList_afterName, List.append_assoc]

theorem slot?_document (name : String) :
    slot? (document name) = some ⟨beforeSlot, (Xml.escape name).toList, behindSlot⟩ := by
  have hclosing : Text.cut? closingTag (document name).toList =
      some (beforeName.toList ++ (Xml.escape name).toList, behindSlot) := by
    have hbefore : Text.Apart closingTag beforeName.toList := by decide +kernel
    have hname : Text.Apart closingTag (Xml.escape name).toList :=
      Text.apart_of_notMem (Xml.notMem_escape (by decide) (by decide) name)
    rw [toList_document, Text.cut?_append hbefore, Text.cut?_append_mark hname (by decide), Option.map_some]
  have hopening : Text.cut? openingTag (beforeName.toList ++ (Xml.escape name).toList) =
      some (beforeSlot, (Xml.escape name).toList) := by
    have hbefore : Text.Apart openingTag beforeSlot := by decide +kernel
    rw [toList_beforeName, List.append_assoc]
    exact Text.cut?_append_mark hbefore (by decide) _
  simp [slot?, hclosing, hopening]

theorem fill_slot (inside : List Char) (name : String) :
    Slot.fill ⟨beforeSlot, inside, behindSlot⟩ name = document name := by
  apply String.toList_inj.mp
  rw [Slot.fill, String.toList_ofList, toList_document, toList_beforeName]
  simp only [List.append_assoc]

/-- **A description carries its name once and as it is.** Whatever the name looks like, a place of the template, a tag,
an entity or the name of a builder, the template is filled, and its one place holds the name with the same text before
and behind it. Another name needs no other change, and shows. -/
theorem document_carries_name {ε : Type} {render : String → String → String → Except ε String}
    (h : Template.OnePass render "project_name") :
    ∃ before behind : List Char, ∀ name : String,
      render template "project_name" (Xml.escape name) = .ok (document name) ∧
      (∃ inside, slot? (document name) = some ⟨before, inside, behind⟩ ∧ Xml.unescape inside = some name.toList) ∧
      (∀ other, (slot? (document name)).map (·.fill other) = some (document other)) ∧
      ∀ other, document name = document other ↔ name = other := by
  refine ⟨beforeSlot, behindSlot, fun name => ⟨render_template h name, ?_, ?_, ?_⟩⟩
  · exact ⟨_, slot?_document name, Xml.unescape_escape name⟩
  · intro other
    rw [slot?_document, Option.map_some, fill_slot]
  · exact fun other => document_inj

def imitation : String := "\x7b\x7b project_name \x7d\x7d\x7b% raw %\x7d\x7b#</name><name>&lt;"

theorem document_carries_imitation :
    Template.OnePass Template.render "project_name" ∧
      Template.render template "project_name" (Xml.escape imitation) = .ok (document imitation) ∧
      (slot? (document imitation)).bind (fun s => Xml.unescape s.inside) = some imitation.toList ∧
      (slot? (document imitation)).map (·.fill "org.python.pydev.PyDevBuilder") =
        some (document "org.python.pydev.PyDevBuilder") ∧
      document imitation ≠ document "org.python.pydev.PyDevBuilder" := by
  have honce := Template.onePass_render "project_name"
  obtain ⟨before, behind, hall⟩ := document_carries_name honce
  obtain ⟨hrender, ⟨inside, hslot, hinside⟩, hfill, hshows⟩ := hall imitation
  refine ⟨honce, hrender, by rw [hslot, Option.bind_some, hinside], hfill _, fun hsame => ?_⟩
  exact absurd ((hshows _).mp hsame) (by decide)

end Description

end EclipseProject
