import EclipseProject.Proofs.Document.Conforming
import EclipseProject.Proofs.Text.Lines

/-!
# Tags and lines of a list document

An escaped value holds no opening bracket, so each bracket in a document begins one of its tags, and how a tag begins is
settled with the character behind its name. So no value adds to the tags that are counted in the text, whatever it
imitates. Values without line feeds leave one element on each line.
-/

namespace EclipseProject

namespace Text

variable {c : Char} {mark xs : List Char}

/-! ## Occurrences -/

/-- At how many positions of the text the mark begins. -/
def occurrences (mark text : List Char) : Nat := text.tails.countP mark.isPrefixOf

theorem occurrences_cons (mark : List Char) (c : Char) (text : List Char) :
    occurrences mark (c :: text) = occurrences mark text + if mark.isPrefixOf (c :: text) then 1 else 0 := by
  unfold occurrences
  rw [List.tails_cons, List.countP_cons]

theorem occurrences_append_of_notMem (h : c ∉ xs) (text : List Char) :
    occurrences (c :: mark) (xs ++ text) = occurrences (c :: mark) text := by
  induction xs with
  | nil => rfl
  | cons x xs ih =>
    rw [List.mem_cons, not_or] at h
    have hne : (c == x) = false := by simpa using h.1
    rw [List.cons_append, occurrences_cons, ih h.2, List.isPrefixOf, hne]
    rfl

end Text

namespace Xml

open Text

variable {form : Form} {name : String} {c : Char} {p : Piece} {ps : List Piece}

/-! ## How a tag begins -/

def Piece.behindName (p : Piece) : List Char := p.attributes.flatMap Attribute.print ++ p.form.trail ++ ['>']

theorem print_eq (p : Piece) : p.print = p.text ++ '<' :: (p.form.lead ++ (p.name.toList ++ p.behindName)) := by
  simp [Piece.print, Piece.behindName]

/-- The bracket, the marks and the name, and one character behind it. -/
def beginning (form : Form) (name : String) (c : Char) : List Char := '<' :: (form.lead ++ name.toList ++ [c])

def Piece.Opens (form : Form) (name : String) (c : Char) (p : Piece) : Prop :=
  p.form.lead = form.lead ∧ p.name = name ∧ p.behindName.head? = some c

instance (form : Form) (name : String) (c : Char) (p : Piece) : Decidable (p.Opens form name c) :=
  inferInstanceAs (Decidable (_ ∧ _))

theorem head?_append_name (h : isName name) (rest : List Char) :
    ∀ d ∈ (name.toList ++ rest).head?, isMark d = false := by
  obtain ⟨d, ds, hname, hstart, _⟩ := exists_cons_of_isName h
  intro e he
  obtain rfl : d = e := by simpa [hname] using he
  exact (isSpace_isMark_of_isNameStart hstart).2

theorem lead_name_inj {form' : Form} {name' : String} {rest rest' : List Char} (h : isName name) (h' : isName name')
    (hrest : ∀ d ∈ rest.head?, isNameChar d = false) (hrest' : ∀ d ∈ rest'.head?, isNameChar d = false)
    (heq : form.lead ++ (name.toList ++ rest) = form'.lead ++ (name'.toList ++ rest')) :
    form.lead = form'.lead ∧ name = name' ∧ rest = rest' := by
  -- a name begins with no mark and ends before the first character that is none of its own
  have hmarks := congrArg (List.takeWhile isMark) heq
  have hbehind := congrArg (List.dropWhile isMark) heq
  rw [takeWhile_run (isMark_lead _) (head?_append_name h _), takeWhile_run (isMark_lead _) (head?_append_name h' _)]
    at hmarks
  rw [dropWhile_run (isMark_lead _) (head?_append_name h _), dropWhile_run (isMark_lead _) (head?_append_name h' _)]
    at hbehind
  have hscan := scanName_append h hrest
  rw [hbehind, scanName_append h' hrest'] at hscan
  obtain ⟨hname, hrest⟩ := Prod.mk.inj (Option.some.inj hscan)
  exact ⟨hmarks, hname.symm, hrest.symm⟩

theorem behindName_ne_nil (p : Piece) : p.behindName ≠ [] := by simp [Piece.behindName]

theorem head?_behindName (p : Piece) (rest : List Char) :
    ∀ d ∈ (p.behindName ++ rest).head?, isNameChar d = false := by
  have htext : p.behindName ++ rest = p.attributes.flatMap Attribute.print ++ (p.form.trail ++ '>' :: rest) := by
    simp [Piece.behindName]
  rw [htext]
  exact head_attributes p.attributes fun d hd => (head_trail p.form rest d hd).2

theorem prefix_beginning_iff (hname : isName name) (hc : isNameChar c = false) (hp : isName p.name) (rest : List Char) :
    form.lead ++ name.toList ++ [c] <+: p.form.lead ++ (p.name.toList ++ (p.behindName ++ rest)) ↔
      p.Opens form name c := by
  constructor
  · rintro ⟨more, hmore⟩
    rw [List.append_assoc, List.append_assoc] at hmore
    have hhead : ∀ d ∈ ([c] ++ more).head?, isNameChar d = false := by
      intro d hd
      cases hd
      exact hc
    obtain ⟨hlead, hsame, hbehind⟩ := lead_name_inj hname hp hhead (head?_behindName p rest) hmore
    have hfirst := congrArg List.head? hbehind
    rw [List.head?_append_of_ne_nil _ (behindName_ne_nil p)] at hfirst
    exact ⟨hlead.symm, hsame.symm, hfirst.symm⟩
  · rintro ⟨hlead, rfl, hfirst⟩
    obtain ⟨more, hmore⟩ := List.head?_eq_some_iff.mp hfirst
    refine ⟨more ++ rest, ?_⟩
    rw [hlead, hmore]
    simp

/-! ## How often a tag begins so -/

/-- Of what is no part of a name, a tag holds only what its values hold and the signs around them. -/
theorem notMem_inside {d : Char} (hd : isNameChar d = false) (hsigns : d ∉ [' ', '=', '"', '/', '?', '>'])
    (hp : p.Named) (hvalues : ∀ a ∈ p.attributes, d ∉ a.value) :
    d ∉ p.form.lead ++ (p.name.toList ++ p.behindName) := by
  have hmarks : d ∉ p.form.lead ∧ d ∉ p.form.trail := by cases p.form <;> simp_all [Form.lead, Form.trail]
  have hname : d ∉ p.name.toList := notMem_name hd hp.name
  have hattributes : d ∉ p.attributes.flatMap Attribute.print := by
    intro hmem
    obtain ⟨a, ha, hmem⟩ := List.mem_flatMap.mp hmem
    have hkey : d ∉ a.name.toList := notMem_name hd (hp.attributes a ha)
    simp_all [Attribute.print]
  simp_all [Piece.behindName]

theorem lt_notMem_inside (h : p.Named) : '<' ∉ (p.map escaped escaped).form.lead ++
    ((p.map escaped escaped).name.toList ++ (p.map escaped escaped).behindName) := by
  apply notMem_inside (by decide) (by decide) (h.map escaped escaped)
  intro a ha
  obtain ⟨b, _, rfl⟩ := List.mem_map.mp ha
  exact notMem_escaped (by decide) (by decide) b.value

theorem occurrences_print (hname : isName name) (hc : isNameChar c = false) (hp : p.Named) (rest : List Char) :
    occurrences (beginning form name c) ((p.map escaped escaped).print ++ rest) =
      occurrences (beginning form name c) rest + if (p.map escaped escaped).Opens form name c then 1 else 0 := by
  set q := p.map escaped escaped with hq
  set inside := q.form.lead ++ (q.name.toList ++ q.behindName) with hinside
  have hprint : q.print ++ rest = q.text ++ '<' :: (inside ++ rest) := by
    rw [print_eq, List.append_assoc, List.cons_append]
  have htext : '<' ∉ q.text := hp.delimited.1
  have hlt : '<' ∉ inside := lt_notMem_inside hp
  have hopens : (beginning form name c).isPrefixOf ('<' :: (inside ++ rest)) = true ↔ q.Opens form name c := by
    rw [← prefix_beginning_iff hname hc (p := q) hp.name rest, beginning, List.isPrefixOf_iff_prefix,
      List.cons_prefix_cons, hinside]
    simp only [List.append_assoc, true_and]
  rw [hprint, beginning, occurrences_append_of_notMem htext, occurrences_cons, occurrences_append_of_notMem hlt]
  simp only [← hopens]
  rfl

/-- Every bracket begins a tag. -/
theorem occurrences_write (hname : isName name) (hc : isNameChar c = false) (hps : ∀ p ∈ ps, p.Named) :
    occurrences (beginning form name c) (write ps).toList =
      ps.countP fun p => (p.map escaped escaped).Opens form name c := by
  unfold write
  rw [String.toList_ofList]
  induction ps with
  | nil => rfl
  | cons p ps ih =>
    obtain ⟨hp, hps⟩ := List.forall_mem_cons.mp hps
    rw [List.map_cons, List.flatMap_cons, occurrences_print hname hc hp, ih hps, List.countP_cons]
    simp

/-! ## The tags of a listing -/

section
variable {root element : String} {rows : List (List Attribute)}

theorem opens_start_iff {text : List Char} :
    ((Piece.mk text .start root []).map escaped escaped).Opens form name c ↔
      form.lead = [] ∧ root = name ∧ c = '>' := by
  simp [Piece.Opens, Piece.map, Piece.behindName, Form.lead, Form.trail, eq_comm (a := c)]

theorem opens_stop_iff {text : List Char} :
    ((Piece.mk text .stop root []).map escaped escaped).Opens form name c ↔
      form.lead = ['/'] ∧ root = name ∧ c = '>' := by
  cases form <;> simp [Piece.Opens, Piece.map, Piece.behindName, Form.lead, Form.trail, eq_comm (a := c)]

theorem opens_row_iff {text : List Char} {row : List Attribute} (hrow : row ≠ []) :
    ((Piece.mk text .empty element row).map escaped escaped).Opens form name c ↔
      form.lead = [] ∧ element = name ∧ c = ' ' := by
  obtain ⟨a, row, rfl⟩ := List.exists_cons_of_ne_nil hrow
  simp [Piece.Opens, Piece.map, Piece.behindName, Attribute.print, Form.lead, eq_comm (a := c)]

theorem not_opens_declaration (hform : form ≠ .declaration) :
    ¬ (declarationPiece.map escaped escaped).Opens form name c := by
  rintro ⟨hlead, _, _⟩
  cases form <;> first | exact hform rfl | cases hlead

theorem countP_listing (declared : Bool) (hform : form ≠ .declaration) (hrows : ∀ row ∈ rows, row ≠ []) :
    ((listing declared root element rows).countP fun p => (p.map escaped escaped).Opens form name c) =
      (if form.lead = [] ∧ root = name ∧ c = '>' then 1 else 0) +
        ((if form.lead = [] ∧ element = name ∧ c = ' ' then rows.length else 0) +
          if form.lead = ['/'] ∧ root = name ∧ c = '>' then 1 else 0) := by
  have hdeclaration : ((if declared then [declarationPiece] else []).countP
      fun p => (p.map escaped escaped).Opens form name c) = 0 := by
    rw [List.countP_eq_zero]
    intro p hp hopens
    split at hp
    · rw [List.mem_singleton.mp hp] at hopens
      exact not_opens_declaration hform (of_decide_eq_true hopens)
    · cases hp
  have hlines : ((rows.map (Piece.mk "\n  ".toList .empty element)).countP
      fun p => (p.map escaped escaped).Opens form name c) =
      if form.lead = [] ∧ element = name ∧ c = ' ' then rows.length else 0 := by
    rw [List.countP_map]
    split
    · next h =>
      rw [List.countP_eq_length]
      exact fun row hrow => decide_eq_true ((opens_row_iff (hrows row hrow)).mpr h)
    · next h =>
      rw [List.countP_eq_zero]
      exact fun row hrow hopens => h ((opens_row_iff (hrows row hrow)).mp (of_decide_eq_true hopens))
  unfold listing
  rw [List.countP_append, List.countP_cons, List.countP_append, List.countP_singleton, hdeclaration, hlines]
  simp only [decide_eq_true_eq, opens_start_iff, opens_stop_iff]
  omega

/-- A root has one tag of each kind, and the elements have one each. -/
theorem occurrences_listing (declared : Bool) (hroot : isName root) (helement : isName element)
    (hrows : ∀ row ∈ rows, (∀ a ∈ row, isName a.name) ∧ (row.map Attribute.name).Nodup) (hne : ∀ row ∈ rows, row ≠ []) :
    let text := (write (listing declared root element rows)).toList
    occurrences (beginning .start root '>') text = 1 ∧ occurrences (beginning .stop root '>') text = 1 ∧
      occurrences (beginning .start element ' ') text = rows.length := by
  intro text
  have hnamed := named_listing declared hroot helement hrows
  have hgt : isNameChar '>' = false := by decide
  have hblank : isNameChar ' ' = false := by decide
  refine ⟨?_, ?_, ?_⟩
  · rw [occurrences_write hroot hgt hnamed, countP_listing declared (by decide) hne]
    simp [Form.lead]
  · rw [occurrences_write hroot hgt hnamed, countP_listing declared (by decide) hne]
    simp [Form.lead]
  · rw [occurrences_write helement hblank hnamed, countP_listing declared (by decide) hne]
    simp [Form.lead]

end

namespace Layout

variable {κ ε : Type} {L : Layout κ ε}

theorem Tagged.tags_write (T : L.Tagged) (es : List ε) :
    occurrences ("<" ++ L.root ++ ">").toList (L.write es).toList = 1 ∧
      occurrences ("</" ++ L.root ++ ">").toList (L.write es).toList = 1 ∧
      occurrences ("<" ++ L.element ++ " ").toList (L.write es).toList = es.length := by
  have hne : ∀ row ∈ es.map T.row, row ≠ [] := by
    intro row hrow
    obtain ⟨e, _, rfl⟩ := List.mem_map.mp hrow
    exact List.cons_ne_nil _ _
  have htags := occurrences_listing T.declared T.isName_root T.isName_element T.named_rows hne
  rw [← T.write_eq, List.length_map] at htags
  simpa [beginning, Form.lead] using htags

end Layout

end Xml

/-! ## Lines -/

namespace Text

def linesOf (text : String) : List String := (lines text.toList).map String.ofList

theorem linesOf_of_notMem {s : String} (h : '\n' ∉ s.toList) : linesOf s = [s] := by
  rw [linesOf, lines_of_notMem h, List.map_singleton, String.ofList_toList]

theorem linesOf_append_newline (s t : String) : linesOf (s ++ "\n" ++ t) = linesOf s ++ linesOf t := by
  have htext : (s ++ "\n" ++ t).toList = s.toList ++ '\n' :: t.toList := by simp
  rw [linesOf, htext, lines_append_newline, List.map_append]
  rfl

theorem linesOf_intercalate {ls : List String} (hne : ls ≠ []) (h : ∀ s ∈ ls, '\n' ∉ s.toList) :
    linesOf ("\n".intercalate ls) = ls := by
  have hlines : lines (['\n'].intercalate (ls.map String.toList)) = ls.map String.toList :=
    lines_intercalate (by simpa using hne) (by simpa using h)
  have htext : ("\n".intercalate ls).toList = ['\n'].intercalate (ls.map String.toList) := String.toList_intercalate
  rw [linesOf, htext, hlines, List.map_map]
  simp

end Text

namespace Xml

open Text

theorem newline_notMem_escaped {cs : List Char} (h : '\n' ∉ cs) : '\n' ∉ escaped cs := by
  intro hmem
  obtain ⟨c, hc, hmem⟩ := List.mem_flatMap.mp hmem
  obtain ⟨e, he, _, htext⟩ | ⟨_, htext⟩ := escapeChar_cases c
  · have hnone : ∀ e ∈ entities, '\n' ∉ e.2.toList := by decide
    exact hnone e he (htext ▸ hmem)
  · rw [htext, List.mem_singleton] at hmem
    exact h (hmem ▸ hc)

theorem Plain.newline_notMem {value : List Char} (h : Plain value) : '\n' ∉ value := by
  intro hmem
  have hbreak := (flatten_eq_self_iff value).mp h.2.1 '\n' hmem
  exact absurd hbreak (by decide)

theorem linesOf_body {xs : List String} (h : ∀ x ∈ xs, '\n' ∉ x.toList) :
    linesOf (body xs) = if xs = [] then [""] else xs.map ("  " ++ ·) := by
  split
  · next hnil =>
    subst hnil
    exact linesOf_of_notMem (by decide)
  · next hne =>
    apply linesOf_intercalate
    · simpa using hne
    · simpa using h

namespace Layout.Tagged

variable {κ ε : Type} {L : Layout κ ε}

theorem newline_notMem_elementText (T : L.Tagged) {e : ε} (h : '\n' ∉ (L.value e).toList) :
    '\n' ∉ (L.elementText e).toList := by
  have hmem : T.row e ∈ [e].map T.row := List.mem_singleton.mpr rfl
  have hrow := T.named_rows _ hmem
  have hpiece : (Piece.mk [] .empty L.element (T.row e)).Named := ⟨T.isName_element, hrow.1, hrow.2⟩
  set p := (Piece.mk [] .empty L.element (T.row e)).map escaped escaped with hp
  have hnamed : p.Named := hpiece.map escaped escaped
  have hkind : '\n' ∉ (L.word (L.kind e)).toList := (T.plain_word _).newline_notMem
  have hothers : ∀ a ∈ T.others, '\n' ∉ a.value := fun a ha => (T.plain_others a ha).newline_notMem
  have hvalues : ∀ a ∈ p.attributes, '\n' ∉ a.value := by
    intro a ha
    obtain ⟨b, hb, rfl⟩ := List.mem_map.mp ha
    apply newline_notMem_escaped
    rcases List.mem_cons.mp hb with rfl | hb
    · exact hkind
    rcases List.mem_cons.mp hb with rfl | hb
    · exact h
    · exact hothers b hb
  have hname : isNameChar '\n' = false := by decide
  have hsigns : '\n' ∉ [' ', '=', '"', '/', '?', '>'] := by decide
  have hinside := notMem_inside hname hsigns hnamed hvalues
  have hprint : (L.elementText e).toList = '<' :: (p.form.lead ++ (p.name.toList ++ p.behindName)) := by
    have hrow : p.print = (L.elementText e).toList := T.print_row [] e
    rw [← hrow, print_eq]
    rfl
  rw [hprint, List.mem_cons, not_or]
  exact ⟨by decide, hinside⟩

theorem linesOf_root (T : L.Tagged) : linesOf (L.prologue ++ ("<" ++ L.root ++ ">")) =
    (if T.declared then [declaration] else []) ++ ["<" ++ L.root ++ ">"] := by
  have hname : '\n' ∉ L.root.toList := notMem_name (by decide) T.isName_root
  have hroot : linesOf ("<" ++ L.root ++ ">") = ["<" ++ L.root ++ ">"] := linesOf_of_notMem (by simp [hname])
  rw [T.prologue_eq]
  split
  · rw [linesOf_append_newline, hroot, linesOf_of_notMem (by decide)]
  · rw [String.empty_append, hroot, List.nil_append]

theorem linesOf_write (T : L.Tagged) {es : List ε} (h : ∀ e ∈ es, '\n' ∉ (L.value e).toList) :
    linesOf (L.write es) = (if T.declared then [declaration] else []) ++ ["<" ++ L.root ++ ">"] ++
      (if es = [] then [""] else es.map fun e => "  " ++ L.elementText e) ++ ["</" ++ L.root ++ ">"] := by
  have hname : '\n' ∉ L.root.toList := notMem_name (by decide) T.isName_root
  have hclosing : linesOf ("</" ++ L.root ++ ">") = ["</" ++ L.root ++ ">"] := linesOf_of_notMem (by simp [hname])
  have helements : ∀ x ∈ es.map L.elementText, '\n' ∉ x.toList := by
    simpa using fun e he => T.newline_notMem_elementText (h e he)
  have htext : L.write es = L.prologue ++ ("<" ++ L.root ++ ">") ++ "\n" ++
      (body (es.map L.elementText) ++ "\n" ++ ("</" ++ L.root ++ ">")) := by
    apply String.toList_inj.mp
    simp [write, opening, closing]
  rw [htext, linesOf_append_newline, linesOf_append_newline, T.linesOf_root, linesOf_body helements, hclosing]
  simp [Function.comp_def]

theorem length_linesOf_write (T : L.Tagged) {es : List ε} (h : ∀ e ∈ es, '\n' ∉ (L.value e).toList) :
    (linesOf (L.write es)).length = max es.length 1 + if T.declared then 3 else 2 := by
  rw [T.linesOf_write h]
  cases es with
  | nil => cases T.declared <;> rfl
  | cons e es =>
    have hmax : max (es.length + 1) 1 = es.length + 1 := by omega
    rw [List.length_cons, hmax]
    cases T.declared <;> simp

end Layout.Tagged

end Xml

namespace Classpath

theorem start_eq : "<" ++ layout.root ++ ">" = "<classpath>" := by decide

theorem stop_eq : "</" ++ layout.root ++ ">" = "</classpath>" := by decide

theorem element_eq : "<" ++ layout.element ++ " " = "<classpathentry " := by decide

end Classpath

namespace Factorypath

theorem start_eq : "<" ++ layout.root ++ ">" = "<factorypath>" := by decide

theorem stop_eq : "</" ++ layout.root ++ ">" = "</factorypath>" := by decide

theorem element_eq : "<" ++ layout.element ++ " " = "<factorypathentry " := by decide

end Factorypath

/-- **Tags are counted, and lines hold one element each.** In a list document each of the two tags of the root stands
once and as many elements begin as there are entries, whatever the values imitate. Without line feeds in the values
there is one line for the declaration, if there is one, for each of the two tags of the root and for each element; no
elements leave one empty line. -/
theorem Xml.tags_and_lines (cs : List Classpath.Entry) (fs : List Factorypath.Entry) :
    let classpath := Classpath.document cs
    let factorypath := Factorypath.document fs
    (Text.occurrences "<classpath>".toList classpath.toList = 1 ∧
      Text.occurrences "</classpath>".toList classpath.toList = 1 ∧
      Text.occurrences "<classpathentry ".toList classpath.toList = cs.length) ∧
    ((∀ e ∈ cs, '\n' ∉ e.path.toList) →
      Text.linesOf classpath = [Xml.declaration, "<classpath>"] ++
        (if cs = [] then [""] else cs.map fun e => "  " ++ e.element) ++ ["</classpath>"] ∧
      (Text.linesOf classpath).length = max cs.length 1 + 3) ∧
    (Text.occurrences "<factorypath>".toList factorypath.toList = 1 ∧
      Text.occurrences "</factorypath>".toList factorypath.toList = 1 ∧
      Text.occurrences "<factorypathentry ".toList factorypath.toList = fs.length) ∧
    ((∀ e ∈ fs, '\n' ∉ e.id.toList) →
      Text.linesOf factorypath = ["<factorypath>"] ++
        (if fs = [] then [""] else fs.map fun e => "  " ++ e.element) ++ ["</factorypath>"] ∧
      (Text.linesOf factorypath).length = max fs.length 1 + 2) := by
  intro classpath factorypath
  have hcs : classpath = Classpath.layout.write cs := Classpath.document_eq_write cs
  have hfs : factorypath = Factorypath.layout.write fs := Factorypath.document_eq_write fs
  rw [hcs, hfs]
  refine ⟨?_, fun h => ⟨?_, Classpath.tagged.length_linesOf_write h⟩, ?_,
    fun h => ⟨?_, Factorypath.tagged.length_linesOf_write h⟩⟩
  · have htags := Classpath.tagged.tags_write cs
    rwa [Classpath.start_eq, Classpath.stop_eq, Classpath.element_eq] at htags
  · have hlines := Classpath.tagged.linesOf_write h
    simp only [Classpath.start_eq, Classpath.stop_eq, Classpath.elementText_eq] at hlines
    exact hlines
  · have htags := Factorypath.tagged.tags_write fs
    rwa [Factorypath.start_eq, Factorypath.stop_eq, Factorypath.element_eq] at htags
  · have hlines := Factorypath.tagged.linesOf_write h
    simp only [Factorypath.start_eq, Factorypath.stop_eq, Factorypath.elementText_eq] at hlines
    exact hlines

/-- Values that imitate tags count for nothing, and no entries leave an empty line. -/
theorem Xml.tags_and_lines_imitations :
    let cs : List Classpath.Entry := [⟨.source, "<classpath>"⟩, ⟨.library, "\"/><classpathentry kind=\"lib\" path=\"x"⟩,
      ⟨.output, "\"/></classpath>"⟩]
    let classpath := Classpath.document cs
    Text.occurrences "<classpath>".toList classpath.toList = 1 ∧
      Text.occurrences "</classpath>".toList classpath.toList = 1 ∧
      Text.occurrences "<classpathentry ".toList classpath.toList = 3 ∧
      (Text.linesOf classpath).length = 6 ∧
      Text.linesOf (Factorypath.document []) = ["<factorypath>", "", "</factorypath>"] := by
  intro cs classpath
  have hvalues : ∀ e ∈ cs, '\n' ∉ e.path.toList := by decide
  obtain ⟨⟨hstart, hstop, helements⟩, hlines, _, hempty⟩ := tags_and_lines cs []
  have hnone : ∀ e ∈ ([] : List Factorypath.Entry), '\n' ∉ e.id.toList := nofun
  exact ⟨hstart, hstop, helements, (hlines hvalues).2, (hempty hnone).1⟩

end EclipseProject
