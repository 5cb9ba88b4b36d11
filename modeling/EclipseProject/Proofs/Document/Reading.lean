import EclipseProject.Document.Classpath
import EclipseProject.Document.Factorypath
import EclipseProject.Proofs.Text.Pieces
import Mathlib.Data.List.Infix

/-!
# Reading list documents

A reader that knows what stands around the elements, around the two values in an element, and the five entities.
It reads back what was written whatever the values are: an escaped value holds no quote, so it ends where it should,
and each entity in it stands for one character.
-/

namespace EclipseProject

namespace Xml

/-! ## Entities -/

def entities : List (Char × String) :=
  [('<', "&lt;"), ('>', "&gt;"), ('&', "&amp;"), ('\'', "&apos;"), ('"', "&quot;")]

/-- An ampersand that begins none of the five entities is refused. -/
def unescape : List Char → Option (List Char)
  | [] => some []
  | '&' :: 'l' :: 't' :: ';' :: rest => (unescape rest).map ('<' :: ·)
  | '&' :: 'g' :: 't' :: ';' :: rest => (unescape rest).map ('>' :: ·)
  | '&' :: 'a' :: 'm' :: 'p' :: ';' :: rest => (unescape rest).map ('&' :: ·)
  | '&' :: 'a' :: 'p' :: 'o' :: 's' :: ';' :: rest => (unescape rest).map ('\'' :: ·)
  | '&' :: 'q' :: 'u' :: 'o' :: 't' :: ';' :: rest => (unescape rest).map ('"' :: ·)
  | c :: rest => if c = '&' then none else (unescape rest).map (c :: ·)

theorem escapeChar_cases (c : Char) :
    (∃ e ∈ entities, c = e.1 ∧ escapeChar c = e.2.toList) ∨ c ∉ entities.map Prod.fst ∧ escapeChar c = [c] := by
  unfold escapeChar
  split
  · exact Or.inl ⟨('<', "&lt;"), by simp [entities], ‹_›, rfl⟩
  split
  · exact Or.inl ⟨('>', "&gt;"), by simp [entities], ‹_›, rfl⟩
  split
  · exact Or.inl ⟨('&', "&amp;"), by simp [entities], ‹_›, rfl⟩
  split
  · exact Or.inl ⟨('\'', "&apos;"), by simp [entities], ‹_›, rfl⟩
  split
  · exact Or.inl ⟨('"', "&quot;"), by simp [entities], ‹_›, rfl⟩
  · exact Or.inr ⟨by simp [entities, *], rfl⟩

theorem unescape_entity {e : Char × String} (h : e ∈ entities) (rest : List Char) :
    unescape (e.2.toList ++ rest) = (unescape rest).map (e.1 :: ·) := by
  simp only [entities, List.mem_cons, List.not_mem_nil, or_false] at h
  rcases h with rfl | rfl | rfl | rfl | rfl <;> rfl

theorem unescape_cons {c : Char} (h : c ≠ '&') (rest : List Char) :
    unescape (c :: rest) = (unescape rest).map (c :: ·) := by
  rw [unescape.eq_def]
  split <;> simp_all

theorem unescape_escapeChar (c : Char) (rest : List Char) :
    unescape (escapeChar c ++ rest) = (unescape rest).map (c :: ·) := by
  obtain ⟨e, he, rfl, h⟩ | ⟨hc, h⟩ := escapeChar_cases c
  · rw [h, unescape_entity he]
  · have hamp : c ≠ '&' := fun hc' => hc (by simp [entities, hc'])
    rw [h, List.singleton_append, unescape_cons hamp]

theorem unescape_escape (s : String) : unescape (escape s).toList = some s.toList := by
  rw [escape, String.toList_ofList]
  induction s.toList with
  | nil => rfl
  | cons c cs ih => rw [List.flatMap_cons, unescape_escapeChar, ih, Option.map_some]

theorem escape_injective {s t : String} (h : escape s = escape t) : s = t := by
  have hs := unescape_escape s
  rw [h, unescape_escape t] at hs
  exact String.toList_inj.mp (Option.some.inj hs).symm

/-- Of the characters that are written as entities, an escaped text holds the ampersand only. -/
theorem notMem_escape {d : Char} (hd : d ∈ entities.map Prod.fst) (hamp : d ≠ '&') (s : String) :
    d ∉ (escape s).toList := by
  rw [escape, String.toList_ofList]
  intro hmem
  obtain ⟨c, _, hc⟩ := List.mem_flatMap.mp hmem
  obtain ⟨e, he, _, h⟩ | ⟨hplain, h⟩ := escapeChar_cases c
  · have hnone : ∀ f ∈ entities, f.1 ≠ '&' → ∀ e ∈ entities, f.1 ∉ e.2.toList := by decide
    obtain ⟨f, hf, rfl⟩ := List.mem_map.mp hd
    exact hnone f hf hamp e he (h ▸ hc)
  · rw [h, List.mem_singleton] at hc
    exact hplain (hc ▸ hd)

theorem quote_notMem_escape (s : String) : '"' ∉ (escape s).toList := notMem_escape (by decide) (by decide) s

/-! ## Layouts -/

/-- What does not vary in a list document: what stands before its root element, the names of that element and of
the elements in it, the attribute that holds the value, and the attributes behind it. An entry is a kind, which is
written as a word, and a value. -/
structure Layout (κ ε : Type) where
  prologue : String
  root : String
  element : String
  key : String
  others : String
  word : κ → String
  kind? : String → Option κ
  kind : ε → κ
  value : ε → String
  entry : κ → String → ε
  entry_kind_value : ∀ e, entry (kind e) (value e) = e
  kind?_word : ∀ k, kind? (word k) = some k
  quote_notMem_word : ∀ k, '"' ∉ (word k).toList

namespace Layout

variable {κ ε : Type} (L : Layout κ ε)

def opening : String := L.prologue ++ "<" ++ L.root ++ ">\n"

def closing : String := "\n</" ++ L.root ++ ">"

/-! ## Writing -/

def attributeText (key value : String) : String := " " ++ key ++ "=\"" ++ value ++ "\""

def elementText (e : ε) : String :=
  "<" ++ L.element ++ attributeText "kind" (L.word (L.kind e)) ++ attributeText L.key (escape (L.value e)) ++
    L.others ++ "/>"

def write (es : List ε) : String := L.opening ++ body (es.map L.elementText) ++ L.closing

/-! ## Reading -/

/-- A value runs to the next quote. -/
def readAttribute (key : String) (cs : List Char) : Option (List Char × List Char) := do
  let rest ← cs.dropPrefix? (" " ++ key ++ "=\"").toList
  let behind ← (rest.dropWhile (· != '"')).dropPrefix? ['"']
  return (rest.takeWhile (· != '"'), behind)

def readElement (decode : List Char → Option (List Char)) (cs : List Char) : Option (ε × List Char) := do
  let rest ← cs.dropPrefix? ("<" ++ L.element).toList
  let (word, rest) ← readAttribute "kind" rest
  let kind ← L.kind? (.ofList word)
  let (text, rest) ← readAttribute L.key rest
  let value ← decode text
  let rest ← rest.dropPrefix? (L.others ++ "/>").toList
  return (L.entry kind (.ofList value), rest)

/-- At most `n` lines with one element each, the first of which begins here, and then the end of the document. -/
def readLines (decode : List Char → Option (List Char)) : Nat → List Char → Option (List ε)
  | 0, _ => none
  | n + 1, cs => do
    let line ← cs.dropPrefix? [' ', ' ']
    let (e, rest) ← L.readElement decode line
    if rest = L.closing.toList then return [e]
    let rest ← rest.dropPrefix? ['\n']
    return e :: (← readLines decode n rest)

def read (decode : List Char → Option (List Char)) (text : String) : Option (List ε) := do
  let rest ← text.toList.dropPrefix? L.opening.toList
  if rest = L.closing.toList then return []
  L.readLines decode rest.length rest

/-! ## Reading what was written -/

theorem dropPrefix?_append (xs rest : List Char) : (xs ++ rest).dropPrefix? xs = some rest :=
  List.dropPrefix?_append_of_beq rest (beq_self_eq_true xs)

theorem readAttribute_attributeText {value : String} (h : '"' ∉ value.toList) (key : String) (rest : List Char) :
    readAttribute key ((attributeText key value).toList ++ rest) = some (value.toList, rest) := by
  have hall := Text.bne_of_notMem h
  have htext : (attributeText key value).toList ++ rest =
      (" " ++ key ++ "=\"").toList ++ (value.toList ++ (['"'] ++ rest)) := by
    simp [attributeText]
  have hbehind : (value.toList ++ (['"'] ++ rest)).dropWhile (· != '"') = ['"'] ++ rest :=
    Text.dropWhile_run hall (by simp)
  have hvalue : (value.toList ++ (['"'] ++ rest)).takeWhile (· != '"') = value.toList :=
    Text.takeWhile_run hall (by simp)
  simp only [readAttribute, htext, dropPrefix?_append, hbehind, hvalue, Option.bind_eq_bind, Option.bind_some,
    Option.pure_def]

/-- An entry with its value as it is decoded. -/
def decoded (decode : List Char → Option (List Char)) (e : ε) : Option ε :=
  (decode (escape (L.value e)).toList).map fun v => L.entry (L.kind e) (.ofList v)

theorem readElement_elementText (decode : List Char → Option (List Char)) (e : ε) (rest : List Char) :
    L.readElement decode ((L.elementText e).toList ++ rest) = (L.decoded decode e).map (·, rest) := by
  have htext : (L.elementText e).toList ++ rest = ("<" ++ L.element).toList ++
      ((attributeText "kind" (L.word (L.kind e))).toList ++
        ((attributeText L.key (escape (L.value e))).toList ++ ((L.others ++ "/>").toList ++ rest))) := by
    simp [elementText]
  unfold readElement
  rw [htext, dropPrefix?_append]
  simp only [Option.bind_eq_bind, Option.bind_some, readAttribute_attributeText (L.quote_notMem_word (L.kind e)),
    readAttribute_attributeText (quote_notMem_escape (L.value e)), String.ofList_toList, L.kind?_word,
    dropPrefix?_append, decoded]
  cases decode (escape (L.value e)).toList <;> rfl

theorem body_singleton (x : String) : (body [x]).toList = [' ', ' '] ++ x.toList := by
  simp [body]

theorem body_cons_cons (x y : String) (xs : List String) :
    (body (x :: y :: xs)).toList = [' ', ' '] ++ (x.toList ++ (['\n'] ++ (body (y :: xs)).toList)) := by
  simp [body, String.toList_intercalate]

/-- A line is not taken for the end: it is indented. -/
theorem body_ne_closing (x : String) (xs : List String) (rest : List Char) :
    (body (x :: xs)).toList ++ rest ≠ L.closing.toList ∧
      ['\n'] ++ ((body (x :: xs)).toList ++ rest) ≠ L.closing.toList := by
  cases xs with
  | nil => simp [body_singleton, closing]
  | cons y ys => simp [body_cons_cons, closing]

theorem readLines_body (decode : List Char → Option (List Char)) (e : ε) (es : List ε) {n : Nat}
    (h : es.length < n) :
    L.readLines decode n ((body ((e :: es).map L.elementText)).toList ++ L.closing.toList) =
      (e :: es).mapM (L.decoded decode) := by
  obtain ⟨m, rfl⟩ : ∃ m, n = m + 1 := Nat.exists_eq_succ_of_ne_zero (by omega)
  induction es generalizing e m with
  | nil =>
    simp only [readLines, List.map_cons, List.map_nil, body_singleton, List.append_assoc, dropPrefix?_append,
      Option.bind_eq_bind, Option.bind_some, readElement_elementText]
    cases he : L.decoded decode e <;> simp [he]
  | cons f fs ih =>
    obtain ⟨k, rfl⟩ : ∃ k, m = k + 1 := Nat.exists_eq_succ_of_ne_zero (by simp at h; omega)
    have hrest := ih f k (by simpa using h)
    have hne := (L.body_ne_closing (L.elementText f) (fs.map L.elementText) L.closing.toList).2
    rw [List.map_cons] at hrest
    rw [readLines, List.mapM_cons (a := e)]
    simp only [List.map_cons, body_cons_cons, List.append_assoc, dropPrefix?_append, Option.bind_eq_bind,
      Option.bind_some, readElement_elementText]
    cases L.decoded decode e with
    | none => rfl
    | some v => simp only [Option.bind_some, Option.map_some, if_neg hne, dropPrefix?_append, hrest]

theorem length_le_body (es : List ε) : es.length ≤ (body (es.map L.elementText)).toList.length := by
  cases es with
  | nil => simp
  | cons e es =>
    induction es generalizing e with
    | nil => simp [body_singleton]
    | cons f fs ih =>
      have h := ih f
      simp only [List.map_cons, body_cons_cons, List.length_append, List.length_cons] at h ⊢
      omega

/-- What is written is read back entry by entry, in their order, each value as it is decoded. -/
theorem read_write (decode : List Char → Option (List Char)) (es : List ε) :
    L.read decode (L.write es) = es.mapM (L.decoded decode) := by
  simp only [read, write, String.toList_append, List.append_assoc, dropPrefix?_append, Option.bind_eq_bind,
    Option.bind_some]
  cases es with
  | nil => simp [body]
  | cons e es =>
    have hne := (L.body_ne_closing (L.elementText e) (es.map L.elementText) L.closing.toList).1
    have hlength := L.length_le_body (e :: es)
    have hclosing : 0 < L.closing.toList.length := by simp [closing]
    rw [List.map_cons, if_neg hne, ← List.map_cons]
    refine L.readLines_body decode e es ?_
    rw [List.length_cons] at hlength
    rw [List.length_append]
    omega

theorem decoded_unescape (e : ε) : L.decoded unescape e = some e := by
  rw [decoded, unescape_escape, Option.map_some, String.ofList_toList, L.entry_kind_value]

theorem read_unescape_write (es : List ε) : L.read unescape (L.write es) = some es := by
  have hsame := Text.mapM_eq_some_map (g := id) fun e (_ : e ∈ es) => L.decoded_unescape e
  rw [read_write, hsame, List.map_id]

theorem write_injective {es fs : List ε} (h : L.write es = L.write fs) : es = fs := by
  have hes := L.read_unescape_write es
  rw [h, L.read_unescape_write fs] at hes
  exact (Option.some.inj hes).symm

end Layout

end Xml

/-! ## The two documents -/

namespace Classpath

def layout : Xml.Layout Kind Entry where
  prologue := Xml.declaration ++ "\n"
  root := "classpath"
  element := "classpathentry"
  key := "path"
  others := ""
  word := Kind.word
  kind? word := [Kind.container, .source, .library, .output].find? (·.word == word)
  kind := Entry.kind
  value := Entry.path
  entry := Entry.mk
  entry_kind_value _ := rfl
  kind?_word k := by cases k <;> rfl
  quote_notMem_word k := by cases k <;> decide

theorem elementText_eq (e : Entry) : layout.elementText e = e.element := by
  apply String.toList_inj.mp
  dsimp only [Entry.element, Xml.Layout.elementText, Xml.Layout.attributeText, layout]
  generalize e.kind.word = word
  generalize Xml.escape e.path = value
  simp

theorem document_eq_write (entries : List Entry) : document entries = layout.write entries := by
  have hopening : layout.opening = Xml.declaration ++ "\n<classpath>\n" := by
    apply String.toList_inj.mp
    simp [Xml.Layout.opening, layout]
  have hclosing : layout.closing = "\n</classpath>" := by
    apply String.toList_inj.mp
    simp [Xml.Layout.closing, layout]
  have helements : layout.elementText = Entry.element := funext elementText_eq
  show Xml.declaration ++ "\n<classpath>\n" ++ Xml.body (entries.map Entry.element) ++ "\n</classpath>" = _
  rw [Xml.Layout.write, hopening, hclosing, helements]

end Classpath

namespace Factorypath

def layout : Xml.Layout Kind Entry where
  prologue := ""
  root := "factorypath"
  element := "factorypathentry"
  key := "id"
  others := " enabled=\"true\" runInBatchMode=\"false\""
  word := Kind.word
  kind? word := [Kind.plugin, .externalJar, .workspaceJar].find? (·.word == word)
  kind := Entry.kind
  value := Entry.id
  entry := Entry.mk
  entry_kind_value _ := rfl
  kind?_word k := by cases k <;> rfl
  quote_notMem_word k := by cases k <;> decide

theorem elementText_eq (e : Entry) : layout.elementText e = e.element := by
  apply String.toList_inj.mp
  dsimp only [Entry.element, Xml.Layout.elementText, Xml.Layout.attributeText, layout]
  generalize e.kind.word = word
  generalize Xml.escape e.id = value
  simp

theorem document_eq_write (entries : List Entry) : document entries = layout.write entries := by
  have hopening : layout.opening = "<factorypath>\n" := by
    apply String.toList_inj.mp
    simp [Xml.Layout.opening, layout]
  have hclosing : layout.closing = "\n</factorypath>" := by
    apply String.toList_inj.mp
    simp [Xml.Layout.closing, layout]
  have helements : layout.elementText = Entry.element := funext elementText_eq
  show "<factorypath>\n" ++ Xml.body (entries.map Entry.element) ++ "\n</factorypath>" = _
  rw [Xml.Layout.write, hopening, hclosing, helements]

end Factorypath

/-- **List documents can be read back.** Whatever the values hold, quotes, entities, elements or closing tags, the
reader finds the entries that were written, in their order and none besides. -/
theorem Xml.read_documents (cs : List Classpath.Entry) (fs : List Factorypath.Entry) :
    Classpath.layout.read unescape (Classpath.document cs) = some cs ∧
      Factorypath.layout.read unescape (Factorypath.document fs) = some fs := by
  rw [Classpath.document_eq_write, Factorypath.document_eq_write]
  exact ⟨Layout.read_unescape_write _ cs, Layout.read_unescape_write _ fs⟩

end EclipseProject
