import EclipseProject.Proofs.Document.Reading

/-!
# Reading markup

A reader of XML that goes by phases. The characters of the whole document are checked, its line ends become line feeds,
and it is cut into tags, each with the text in front of it. Then values and texts are decoded, and the tags have to
close each other around one root. Of XML it knows elements, attributes, the declaration and the five entities; anything
else is refused.

What is written with its texts and values escaped is read again as the same tags. Of the texts only the line ends
change, and in a value each break becomes a blank.
-/

namespace EclipseProject.Xml

open Text

/-! ## Characters -/

/-- The characters that XML 1.0 admits. -/
def isChar (c : Char) : Bool :=
  c ∈ ['\t', '\n', '\r'] || 0x20 ≤ c.toNat && c.toNat ≤ 0xD7FF || 0xE000 ≤ c.toNat && c.toNat ≤ 0xFFFD ||
    0x10000 ≤ c.toNat && c.toNat ≤ 0x10FFFF

def isSpace (c : Char) : Bool := c ∈ [' ', '\t', '\n', '\r']

def isNameStart (c : Char) : Bool := c.isAlpha || c ∈ ['_', ':']

def isNameChar (c : Char) : Bool := isNameStart c || c.isDigit || c ∈ ['-', '.']

def isName (s : String) : Bool := s.toList.head?.any isNameStart && s.toList.all isNameChar

/-! ## Escaped characters -/

def escaped (cs : List Char) : List Char := cs.flatMap escapeChar

theorem toList_escape (s : String) : (escape s).toList = escaped s.toList := String.toList_ofList

theorem unescape_escaped (cs : List Char) : unescape (escaped cs) = some cs := by
  have h := unescape_escape (.ofList cs)
  rwa [toList_escape, String.toList_ofList] at h

theorem notMem_escaped {d : Char} (hd : d ∈ entities.map Prod.fst) (hamp : d ≠ '&') (cs : List Char) :
    d ∉ escaped cs := by
  have h := notMem_escape hd hamp (.ofList cs)
  rwa [toList_escape, String.toList_ofList] at h

theorem all_isChar_escaped (cs : List Char) : (escaped cs).all isChar = cs.all isChar := by
  have hchar : ∀ c, (escapeChar c).all isChar = isChar c := by
    intro c
    obtain ⟨e, he, rfl, h⟩ | ⟨_, h⟩ := escapeChar_cases c
    · have hall : ∀ e ∈ entities, e.2.toList.all isChar = isChar e.1 := by decide
      rw [h, hall e he]
    · rw [h, List.all_cons, List.all_nil, Bool.and_true]
  rw [escaped, List.all_flatMap]
  exact congrArg cs.all (funext hchar)

/-! ## Line ends and breaks -/

/-- A carriage return in front of a line feed is left out, and any other becomes a line feed. -/
def lineEnds : List Char → List Char
  | [] => []
  | c :: cs =>
    if c = '\r' then if cs.head? = some '\n' then lineEnds cs else '\n' :: lineEnds cs
    else c :: lineEnds cs

/-- In a value a tabulator and a line feed are read as blanks. -/
def blank (c : Char) : Char := if c ∈ ['\t', '\n'] then ' ' else c

/-- What puts a break into a value. -/
def isBreak (c : Char) : Bool := c ∈ ['\t', '\n', '\r']

/-- One blank for each break, where a carriage return and a line feed are one. -/
def flatten : List Char → List Char
  | [] => []
  | '\r' :: '\n' :: cs => ' ' :: flatten cs
  | c :: cs => (if isBreak c then ' ' else c) :: flatten cs

theorem lineEnds_append_of_notMem {xs : List Char} (h : '\r' ∉ xs) (ys : List Char) :
    lineEnds (xs ++ ys) = xs ++ lineEnds ys := by
  induction xs with
  | nil => rfl
  | cons c xs ih =>
    have hc : c ≠ '\r' := fun e => h (e ▸ List.mem_cons_self ..)
    rw [List.cons_append, lineEnds, if_neg hc, ih (fun hmem => h (List.mem_cons_of_mem _ hmem)), List.cons_append]

theorem lineEnds_of_notMem {xs : List Char} (h : '\r' ∉ xs) : lineEnds xs = xs := by
  have happend := lineEnds_append_of_notMem h []
  rwa [lineEnds, List.append_nil] at happend

/-- A cut in front of a line feed could part it from a carriage return. -/
theorem lineEnds_append_cons {c : Char} (hc : c ≠ '\n') (xs ys : List Char) :
    lineEnds (xs ++ c :: ys) = lineEnds xs ++ lineEnds (c :: ys) := by
  induction xs with
  | nil => rfl
  | cons x xs ih =>
    have hhead : (xs ++ c :: ys).head? = some '\n' ↔ xs.head? = some '\n' := by cases xs <;> simp [hc]
    rw [List.cons_append]
    simp only [lineEnds, hhead, ih]
    split
    · split <;> rfl
    · rfl

theorem cr_notMem_lineEnds (cs : List Char) : '\r' ∉ lineEnds cs := by
  induction cs with
  | nil => exact List.not_mem_nil
  | cons c cs ih =>
    rw [lineEnds]
    split
    · split
      · exact ih
      · simpa using ih
    · simpa [eq_comm] using ⟨‹_›, ih⟩

theorem lineEnds_eq_self_iff (cs : List Char) : lineEnds cs = cs ↔ '\r' ∉ cs :=
  ⟨fun h => h ▸ cr_notMem_lineEnds cs, lineEnds_of_notMem⟩

theorem head?_escaped (cs : List Char) : (escaped cs).head? = some '\n' ↔ cs.head? = some '\n' := by
  cases cs with
  | nil => rfl
  | cons c cs =>
    obtain ⟨e, he, rfl, h⟩ | ⟨_, h⟩ := escapeChar_cases c
    · have hall : ∀ e ∈ entities, e.1 ≠ '\n' ∧ e.2.toList.head? = some '&' := by decide
      obtain ⟨hne, hamp⟩ := hall e he
      simp [escaped, h, List.head?_append, hamp, hne]
    · simp [escaped, h]

theorem lineEnds_escaped (cs : List Char) : lineEnds (escaped cs) = escaped (lineEnds cs) := by
  induction cs with
  | nil => rfl
  | cons c cs ih =>
    by_cases hc : c = '\r'
    · have hcr : escaped ('\r' :: cs) = '\r' :: escaped cs := rfl
      have hlf : escaped ('\n' :: lineEnds cs) = '\n' :: escaped (lineEnds cs) := rfl
      subst hc
      rw [hcr]
      simp only [lineEnds, if_true, head?_escaped, ih]
      split
      · rfl
      · rw [hlf]
    · have hchar : '\r' ∉ escapeChar c := by
        obtain ⟨e, he, _, h⟩ | ⟨_, h⟩ := escapeChar_cases c
        · have hall : ∀ e ∈ entities, '\r' ∉ e.2.toList := by decide
          exact h ▸ hall e he
        · simpa [h] using Ne.symm hc
      rw [lineEnds, if_neg hc, escaped, List.flatMap_cons, lineEnds_append_of_notMem hchar]
      exact congrArg (escapeChar c ++ ·) ih

theorem map_blank_escaped (cs : List Char) : (escaped cs).map blank = escaped (cs.map blank) := by
  have hchar : ∀ c, (escapeChar c).map blank = escapeChar (blank c) := by
    intro c
    obtain ⟨e, he, rfl, h⟩ | ⟨hc, h⟩ := escapeChar_cases c
    · have hall : ∀ e ∈ entities, e.2.toList.map blank = escapeChar (blank e.1) := by decide
      rw [h, hall e he]
    · by_cases hbreak : c ∈ ['\t', '\n']
      · obtain rfl | rfl : c = '\t' ∨ c = '\n' := by simpa using hbreak
        · rfl
        · rfl
      · rw [blank, if_neg hbreak, h, List.map_singleton, blank, if_neg hbreak]
  simp only [escaped, List.map_flatMap, List.flatMap_map, hchar]

/-- What becomes of a value between writing and reading. -/
theorem map_blank_lineEnds (cs : List Char) : (lineEnds cs).map blank = flatten cs := by
  fun_induction flatten cs with
  | case1 => rfl
  | case2 cs ih => simpa [lineEnds, blank] using ih
  | case3 c cs hne ih =>
    by_cases hc : c = '\r'
    · have hhead : cs.head? ≠ some '\n' := by
        intro h
        obtain ⟨ds, rfl⟩ := List.head?_eq_some_iff.mp h
        exact hne ds hc rfl
      simp [lineEnds, hc, hhead, blank, isBreak, ih]
    · simp [lineEnds, hc, blank, isBreak, ih]

theorem isBreak_flatten (cs : List Char) : ∀ c ∈ flatten cs, isBreak c = false := by
  fun_induction flatten cs with
  | case1 => simp
  | case2 cs ih => simpa [isBreak] using ih
  | case3 c cs _ ih =>
    simp only [List.mem_cons, forall_eq_or_imp]
    refine ⟨?_, ih⟩
    split
    · rfl
    · simpa using ‹¬isBreak c = true›

theorem flatten_of_unbroken {cs : List Char} (h : ∀ c ∈ cs, isBreak c = false) : flatten cs = cs := by
  fun_induction flatten cs with
  | case1 => rfl
  | case2 cs => exact absurd (h '\r' (by simp)) (by decide)
  | case3 c cs _ ih => rw [h c (by simp), if_neg (by decide), ih (fun d hd => h d (List.mem_cons_of_mem _ hd))]

theorem flatten_eq_self_iff (cs : List Char) : flatten cs = cs ↔ ∀ c ∈ cs, isBreak c = false :=
  ⟨fun h => h ▸ isBreak_flatten cs, flatten_of_unbroken⟩

/-! ## Tags -/

structure Attribute where
  name : String
  value : List Char
  deriving DecidableEq, Repr

inductive Form where
  | start
  | stop
  | empty
  | declaration
  deriving DecidableEq, Repr

def isMark (c : Char) : Bool := c ∈ ['/', '?']

/-- The marks in front of the name of a tag. -/
def Form.lead : Form → List Char
  | .start => []
  | .stop => ['/']
  | .empty => []
  | .declaration => ['?']

/-- The marks at the end of a tag. -/
def Form.trail : Form → List Char
  | .start => []
  | .stop => []
  | .empty => ['/']
  | .declaration => ['?']

def form? (lead trail : List Char) : Option Form :=
  [Form.start, .stop, .empty, .declaration].find? fun f => f.lead = lead ∧ f.trail = trail

/-- A tag with the text in front of it. -/
structure Piece where
  text : List Char
  form : Form
  name : String
  attributes : List Attribute
  deriving DecidableEq, Repr

/-- Changes the text and the values. -/
def Piece.map (onText onValue : List Char → List Char) (p : Piece) : Piece :=
  { p with text := onText p.text, attributes := p.attributes.map fun a => ⟨a.name, onValue a.value⟩ }

def Attribute.print (a : Attribute) : List Char := ' ' :: (a.name.toList ++ '=' :: '"' :: (a.value ++ ['"']))

def Piece.print (p : Piece) : List Char :=
  p.text ++ '<' :: (p.form.lead ++ p.name.toList ++ p.attributes.flatMap Attribute.print ++ p.form.trail ++ ['>'])

/-! ## Cutting a text into tags -/

def scanName (cs : List Char) : Option (String × List Char) :=
  if cs.head?.any isNameStart then some (.ofList (cs.takeWhile isNameChar), cs.dropWhile isNameChar) else none

def scanValue : List Char → Option (List Char × List Char)
  | '=' :: q :: cs =>
    if q ∈ ['"', '\''] ∧ q ∈ cs then some (cs.takeWhile (· != q), (cs.dropWhile (· != q)).tail) else none
  | _ => none

/-- At most `n` attributes, with blanks in front of each. -/
def scanAttributes : Nat → List Char → Option (List Attribute × List Char)
  | 0, _ => none
  | n + 1, cs =>
    let rest := cs.dropWhile isSpace
    if cs.head?.any isSpace && rest.head?.any isNameStart then do
      let (name, rest) ← scanName rest
      let (value, rest) ← scanValue rest
      let (others, rest) ← scanAttributes n rest
      return (⟨name, value⟩ :: others, rest)
    else some ([], rest)

def scanPiece (cs : List Char) : Option (Piece × List Char) := do
  let tag ← (cs.dropWhile (· != '<')).dropPrefix? ['<']
  let (name, rest) ← scanName (tag.dropWhile isMark)
  let (attributes, rest) ← scanAttributes (rest.length + 1) rest
  let form ← form? (tag.takeWhile isMark) (rest.takeWhile isMark)
  let rest ← (rest.dropWhile isMark).dropPrefix? ['>']
  return (⟨cs.takeWhile (· != '<'), form, name, attributes⟩, rest)

/-- At most `n` tags. Behind the last there are blanks only. -/
def scan : Nat → List Char → Option (List Piece)
  | 0, _ => none
  | n + 1, cs =>
    if cs.all isSpace then some []
    else do
      let (p, rest) ← scanPiece cs
      return p :: (← scan n rest)

/-! ## What is cut out was printed -/

def Attribute.Delimited (a : Attribute) : Prop := isName a.name ∧ '"' ∉ a.value

def Piece.Delimited (p : Piece) : Prop := '<' ∉ p.text ∧ isName p.name ∧ ∀ a ∈ p.attributes, a.Delimited

theorem exists_cons_of_isName {s : String} (h : isName s) :
    ∃ c cs, s.toList = c :: cs ∧ isNameStart c = true ∧ ∀ d ∈ s.toList, isNameChar d = true := by
  obtain ⟨hstart, hall⟩ := Bool.and_eq_true_iff.mp h
  cases hs : s.toList with
  | nil => simp [hs] at hstart
  | cons c cs =>
    rw [hs] at hstart hall
    exact ⟨c, cs, rfl, hstart, List.all_eq_true.mp hall⟩

/-- What is no part of a name. -/
def isDelimiter (c : Char) : Bool := isSpace c || isMark c || c ∈ ['<', '>', '=']

theorem isDelimiter_of_isNameChar {c : Char} (h : isNameChar c) : isDelimiter c = false := by
  rw [Bool.eq_false_iff]
  intro hc
  simp only [isDelimiter, isSpace, isMark, Bool.or_eq_true, decide_eq_true_eq, List.mem_cons, List.not_mem_nil,
    or_false] at hc
  rcases hc with ((rfl | rfl | rfl | rfl) | rfl | rfl) | rfl | rfl | rfl <;> exact absurd h (by decide)

theorem isSpace_isMark_of_isNameStart {c : Char} (h : isNameStart c) : isSpace c = false ∧ isMark c = false := by
  have hc := isDelimiter_of_isNameChar (c := c) (by simp [isNameChar, h])
  simp only [isDelimiter, Bool.or_eq_false_iff] at hc
  exact hc.1

/-- A name goes on for as long as it can. -/
theorem scanName_append {s : String} (h : isName s) {rest : List Char}
    (hrest : ∀ c ∈ rest.head?, isNameChar c = false) : scanName (s.toList ++ rest) = some (s, rest) := by
  obtain ⟨c, cs, hs, hc, hall⟩ := exists_cons_of_isName h
  have hhead : (s.toList ++ rest).head?.any isNameStart = true := by simp [hs, hc]
  rw [scanName, if_pos hhead, takeWhile_run hall hrest, dropWhile_run hall hrest,
    String.ofList_toList]

theorem scanValue_append {value : List Char} (h : '"' ∉ value) (rest : List Char) :
    scanValue ('=' :: '"' :: (value ++ '"' :: rest)) = some (value, rest) := by
  have hall := bne_of_notMem h
  have hhead : ∀ c ∈ ('"' :: rest).head?, (c != '"') = false := by simp
  rw [scanValue, if_pos (by simp), takeWhile_run hall hhead, dropWhile_run hall hhead]
  rfl

theorem scanAttributes_append {as : List Attribute} (h : ∀ a ∈ as, a.Delimited) {n : Nat} (hn : as.length < n)
    {rest : List Char} (hrest : ∀ c ∈ rest.head?, isSpace c = false) :
    scanAttributes n (as.flatMap Attribute.print ++ rest) = some (as, rest) := by
  obtain ⟨m, rfl⟩ : ∃ m, n = m + 1 := Nat.exists_eq_succ_of_ne_zero (by omega)
  induction as generalizing m with
  | nil =>
    have hno : rest.head?.any isSpace = false := by
      cases hr : rest.head? with
      | none => rfl
      | some c => exact hrest c hr
    have hdrop : rest.dropWhile isSpace = rest := @dropWhile_run isSpace [] rest (by simp) hrest
    simp [scanAttributes, hno, hdrop]
  | cons a as ih =>
    obtain ⟨k, rfl⟩ : ∃ k, m = k + 1 := Nat.exists_eq_succ_of_ne_zero (by simp at hn; omega)
    obtain ⟨⟨hname, hvalue⟩, has⟩ := List.forall_mem_cons.mp h
    obtain ⟨c, cs, hs, hc, _⟩ := exists_cons_of_isName hname
    have hothers := ih has k (by simpa using hn)
    obtain ⟨hspace, _⟩ := isSpace_isMark_of_isNameStart hc
    set behind := '=' :: '"' :: (a.value ++ '"' :: (as.flatMap Attribute.print ++ rest)) with hbehind
    have htext : (a :: as).flatMap Attribute.print ++ rest = ' ' :: (a.name.toList ++ behind) := by
      simp [Attribute.print, hbehind]
    have hdrop : (' ' :: (a.name.toList ++ behind)).dropWhile isSpace = a.name.toList ++ behind :=
      @dropWhile_run isSpace [' '] _ (by simp; decide) (by simp [hs, hspace])
    have hfirst : isSpace ' ' = true := by decide
    have hend : ∀ c ∈ behind.head?, isNameChar c = false := by simp [hbehind]; decide
    rw [htext, scanAttributes, hdrop, scanName_append hname hend]
    simp [hbehind, scanValue_append hvalue, hothers, hs, hc, hfirst]

theorem head_attributes (as : List Attribute) {rest : List Char} (h : ∀ c ∈ rest.head?, isNameChar c = false) :
    ∀ c ∈ (as.flatMap Attribute.print ++ rest).head?, isNameChar c = false := by
  cases as with
  | nil => exact h
  | cons a as => simp [Attribute.print]; decide

theorem form?_lead_trail (f : Form) : form? f.lead f.trail = some f := by
  cases f <;> rfl

theorem isMark_lead (f : Form) : ∀ c ∈ f.lead, isMark c = true := by
  cases f <;> simp [Form.lead, isMark]

theorem isMark_trail (f : Form) : ∀ c ∈ f.trail, isMark c = true := by
  cases f <;> simp [Form.trail, isMark]

theorem head_trail (f : Form) (rest : List Char) :
    ∀ c ∈ (f.trail ++ '>' :: rest).head?, isSpace c = false ∧ isNameChar c = false := by
  cases f <;> simp [Form.trail] <;> decide

theorem scanPiece_append {p : Piece} (h : p.Delimited) (rest : List Char) :
    scanPiece (p.print ++ rest) = some (p, rest) := by
  obtain ⟨htext, hname, hattributes⟩ := h
  obtain ⟨c, cs, hs, hc, _⟩ := exists_cons_of_isName hname
  obtain ⟨_, hmark⟩ := isSpace_isMark_of_isNameStart hc
  set trail := p.form.trail ++ '>' :: rest with htrail
  set behind := p.attributes.flatMap Attribute.print ++ trail with hbehind
  set tag := p.form.lead ++ (p.name.toList ++ behind) with htag
  have hprint : p.print ++ rest = p.text ++ '<' :: tag := by
    simp [Piece.print, hbehind, htrail, htag]
  have hplain := bne_of_notMem htext
  have hopen : ∀ c ∈ ('<' :: tag).head?, (c != '<') = false := by simp
  have hlt : ('<' :: tag).dropPrefix? ['<'] = some tag := Layout.dropPrefix?_append ['<'] tag
  have hstart : ∀ c ∈ (p.name.toList ++ behind).head?, isMark c = false := by simp [hs, hmark]
  have hlead : tag.takeWhile isMark = p.form.lead := takeWhile_run (isMark_lead p.form) hstart
  have hnamed : tag.dropWhile isMark = p.name.toList ++ behind :=
    dropWhile_run (isMark_lead p.form) hstart
  have hname : scanName (p.name.toList ++ behind) = some (p.name, behind) :=
    scanName_append hname (head_attributes p.attributes fun c hc => (head_trail p.form rest c hc).2)
  have hlength : p.attributes.length < behind.length + 1 := by
    have hle : p.attributes.length ≤ (p.attributes.flatMap Attribute.print).length :=
      length_le_flatMap (fun _ => List.cons_ne_nil _ _) _
    rw [hbehind, List.length_append]
    omega
  have hattributes : scanAttributes (behind.length + 1) behind = some (p.attributes, trail) :=
    scanAttributes_append hattributes hlength fun c hc => (head_trail p.form rest c hc).1
  have hclose : ∀ c ∈ ('>' :: rest).head?, isMark c = false := by simp; decide
  have hmarks : trail.takeWhile isMark = p.form.trail := takeWhile_run (isMark_trail p.form) hclose
  have hend : trail.dropWhile isMark = '>' :: rest := dropWhile_run (isMark_trail p.form) hclose
  have hgt : ('>' :: rest).dropPrefix? ['>'] = some rest := Layout.dropPrefix?_append ['>'] rest
  rw [hprint, scanPiece, dropWhile_run hplain hopen, takeWhile_run hplain hopen]
  simp only [Option.bind_eq_bind, Option.bind_some, Option.pure_def, hlt, hlead, hnamed, hname, hattributes, hmarks,
    hend, hgt, form?_lead_trail]

theorem scan_print {ps : List Piece} (h : ∀ p ∈ ps, p.Delimited) {n : Nat} (hn : ps.length < n) :
    scan n (ps.flatMap Piece.print) = some ps := by
  obtain ⟨m, rfl⟩ : ∃ m, n = m + 1 := Nat.exists_eq_succ_of_ne_zero (by omega)
  induction ps generalizing m with
  | nil => rfl
  | cons p ps ih =>
    obtain ⟨k, rfl⟩ : ∃ k, m = k + 1 := Nat.exists_eq_succ_of_ne_zero (by simp at hn; omega)
    obtain ⟨hp, hps⟩ := List.forall_mem_cons.mp h
    have hrest := ih hps k (by simpa using hn)
    have hmore : (p.print ++ ps.flatMap Piece.print).all isSpace = false := by
      have hlt : isSpace '<' = false := by decide
      simp [Piece.print, hlt]
    rw [List.flatMap_cons, scan, hmore, scanPiece_append hp]
    simp [hrest]

/-! ## Line ends in what was printed -/

structure Piece.Named (p : Piece) : Prop where
  name : isName p.name
  attributes : ∀ a ∈ p.attributes, isName a.name
  nodup : (p.attributes.map Attribute.name).Nodup

theorem notMem_name {c : Char} (hc : isNameChar c = false) {s : String} (h : isName s) : c ∉ s.toList := by
  obtain ⟨_, _, _, _, hall⟩ := exists_cons_of_isName h
  intro hmem
  rw [hall c hmem] at hc
  cases hc

theorem lineEnds_attributes {as : List Attribute} (h : ∀ a ∈ as, isName a.name) (rest : List Char) :
    lineEnds (as.flatMap Attribute.print ++ rest) =
      (as.map fun a => ⟨a.name, lineEnds a.value⟩).flatMap Attribute.print ++ lineEnds rest := by
  induction as with
  | nil => rfl
  | cons a as ih =>
    obtain ⟨ha, has⟩ := List.forall_mem_cons.mp h
    set more := as.flatMap Attribute.print ++ rest with hmore
    have hname : '\r' ∉ a.name.toList := notMem_name (by decide) ha
    have hfront : '\r' ∉ ' ' :: (a.name.toList ++ ['=', '"']) := by simp [hname]
    have htext : (a :: as).flatMap Attribute.print ++ rest =
        ' ' :: (a.name.toList ++ ['=', '"']) ++ (a.value ++ '"' :: more) := by simp [Attribute.print, hmore]
    have hquote : lineEnds ('"' :: more) = '"' :: lineEnds more :=
      @lineEnds_append_of_notMem ['"'] (by decide) more
    rw [htext, lineEnds_append_of_notMem hfront, lineEnds_append_cons (by decide), hquote, ih has]
    simp [Attribute.print]

theorem lineEnds_piece {p : Piece} (h : p.Named) (rest : List Char) :
    lineEnds (p.print ++ rest) = (p.map lineEnds lineEnds).print ++ lineEnds rest := by
  set tag := p.attributes.flatMap Attribute.print ++ (p.form.trail ++ ['>'] ++ rest) with htag
  have hlead : '\r' ∉ p.form.lead := by cases p.form <;> decide
  have htrail : '\r' ∉ p.form.trail ++ ['>'] := by cases p.form <;> decide
  have hname : '\r' ∉ p.name.toList := notMem_name (by decide) h.name
  have hfront : '\r' ∉ '<' :: (p.form.lead ++ p.name.toList) := by simp [hlead, hname]
  have hprint : p.print ++ rest = p.text ++ '<' :: (p.form.lead ++ p.name.toList ++ tag) := by
    simp [Piece.print, htag]
  have hlt : lineEnds ('<' :: (p.form.lead ++ p.name.toList ++ tag)) =
      '<' :: (p.form.lead ++ p.name.toList) ++ lineEnds tag := lineEnds_append_of_notMem hfront tag
  rw [hprint, lineEnds_append_cons (by decide), hlt, htag, lineEnds_attributes h.attributes,
    lineEnds_append_of_notMem htrail]
  simp [Piece.print, Piece.map]

theorem lineEnds_print {ps : List Piece} (h : ∀ p ∈ ps, p.Named) :
    lineEnds (ps.flatMap Piece.print) = (ps.map (Piece.map lineEnds lineEnds)).flatMap Piece.print := by
  induction ps with
  | nil => rfl
  | cons p ps ih =>
    obtain ⟨hp, hps⟩ := List.forall_mem_cons.mp h
    rw [List.flatMap_cons, lineEnds_piece hp, ih hps, List.map_cons, List.flatMap_cons]

/-! ## Decoding -/

def decodeText (text : List Char) : Option (List Char) :=
  if "]]>".toList <:+: text then none else unescape text

def decodeValue (value : List Char) : Option (List Char) :=
  if '<' ∈ value then none else unescape (value.map blank)

/-- No two attributes of a tag have one name. -/
def Piece.decode (p : Piece) : Option Piece := do
  let text ← decodeText p.text
  let attributes ← p.attributes.mapM fun a => (decodeValue a.value).map (Attribute.mk a.name ·)
  if (p.attributes.map Attribute.name).Nodup then return { p with text, attributes } else none

theorem decodeText_escaped (text : List Char) : decodeText (escaped text) = some text := by
  have hgt : ¬ "]]>".toList <:+: escaped text := fun h =>
    notMem_escaped (by decide) (by decide) text (h.subset (by decide : '>' ∈ "]]>".toList))
  rw [decodeText, if_neg hgt, unescape_escaped]

theorem decodeValue_escaped (value : List Char) : decodeValue (escaped value) = some (value.map blank) := by
  rw [decodeValue, if_neg (notMem_escaped (by decide) (by decide) value), map_blank_escaped, unescape_escaped]

theorem decode_escaped {p : Piece} (h : (p.attributes.map Attribute.name).Nodup) :
    (p.map escaped escaped).decode = some (p.map id (List.map blank)) := by
  have htext : decodeText (p.map escaped escaped).text = some p.text := decodeText_escaped p.text
  have hvalues : (p.map escaped escaped).attributes.mapM (fun a => (decodeValue a.value).map (Attribute.mk a.name ·)) =
      some (p.map id (List.map blank)).attributes := by
    rw [Piece.map, List.mapM_map]
    refine mapM_eq_some_map fun a _ => ?_
    simp [decodeValue_escaped]
  have hnames : (p.map escaped escaped).attributes.map Attribute.name = p.attributes.map Attribute.name := by
    simp [Piece.map, Function.comp_def]
  simp only [Piece.decode, htext, hvalues, hnames, if_pos h, Option.bind_eq_bind, Option.bind_some, Option.pure_def]
  rfl

/-! ## Nesting -/

/-- The elements that are open behind a tag, innermost first. -/
def Piece.step (p : Piece) (around : List String) : Option (List String) :=
  match p.form, around with
  | .start, _ => some (p.name :: around)
  | .empty, _ => some around
  | .stop, name :: outer => if name = p.name ∧ p.attributes = [] then some outer else none
  | _, _ => none

/-- The element of a tag and those around it. -/
def Piece.path (p : Piece) (around : List String) : List String :=
  if p.form = .stop then around else p.name :: around

/-- The tags up to the end of the root element, each with its path. The root is the last to be closed. -/
def walk : List String → List Piece → Option (List (List String × Piece))
  | _, [] => none
  | around, p :: ps => do
    let next ← p.step around
    if next = [] then if ps = [] then some [(p.path around, p)] else none
    else return (p.path around, p) :: (← walk next ps)

def Piece.isDeclaration (p : Piece) : Bool :=
  p.text = [] && p.form = .declaration && p.name = "xml" && p.attributes.head? = some ⟨"version", "1.0".toList⟩

/-- In front of the root there may be a declaration, and blanks. -/
def document? (ps : List Piece) : Option (List (List String × Piece)) :=
  let content := if ps.head?.any Piece.isDeclaration then ps.tail else ps
  if content.head?.all (·.text.all isSpace) then walk [] content else none

/-! ## Reading and writing -/

def read (s : String) : Option (List (List String × Piece)) :=
  if s.toList.all isChar then do
    let cs := lineEnds s.toList
    let ps ← scan (cs.length + 1) cs
    document? (← ps.mapM Piece.decode)
  else none

def write (ps : List Piece) : String := .ofList ((ps.map (Piece.map escaped escaped)).flatMap Piece.print)

def Piece.isReadable (p : Piece) : Bool := p.text.all isChar && p.attributes.all (·.value.all isChar)

theorem Piece.Named.map {p : Piece} (h : p.Named) (onText onValue : List Char → List Char) :
    (p.map onText onValue).Named where
  name := h.name
  attributes := by simpa [Piece.map] using h.attributes
  nodup := by simpa [Piece.map, Function.comp_def] using h.nodup

theorem Piece.Named.delimited {p : Piece} (h : p.Named) : (p.map escaped escaped).Delimited := by
  refine ⟨notMem_escaped (by decide) (by decide) p.text, h.name, ?_⟩
  simp only [Piece.map, List.mem_map, forall_exists_index, and_imp, forall_apply_eq_imp_iff₂]
  exact fun a ha => ⟨h.attributes a ha, notMem_escaped (by decide) (by decide) a.value⟩

theorem isChar_of_isNameChar {c : Char} (h : isNameChar c) : isChar c = true := by
  have hrange : 0x20 ≤ c.toNat ∧ c.toNat ≤ 0xD7FF := by
    delta isNameChar isNameStart Char.isAlpha Char.isUpper Char.isLower Char.isDigit at h
    simp only [Bool.or_eq_true, Bool.and_eq_true, decide_eq_true_eq, List.mem_cons, List.not_mem_nil, or_false,
      UInt32.le_iff_toNat_le, ge_iff_le] at h
    rcases h with (((h | h) | (rfl | rfl)) | h) | (rfl | rfl)
    · exact ⟨le_trans (by decide) h.1, le_trans h.2 (by decide)⟩
    · exact ⟨le_trans (by decide) h.1, le_trans h.2 (by decide)⟩
    · decide
    · decide
    · exact ⟨le_trans (by decide) h.1, le_trans h.2 (by decide)⟩
    · decide
    · decide
  simp [isChar, hrange]

theorem all_isChar_name {s : String} (h : isName s) : s.toList.all isChar = true := by
  obtain ⟨_, _, _, _, hall⟩ := exists_cons_of_isName h
  exact List.all_eq_true.mpr fun c hc => isChar_of_isNameChar (hall c hc)

theorem all_congr_of_mem {α : Type} {f g : α → Bool} {xs : List α} (h : ∀ x ∈ xs, f x = g x) :
    xs.all f = xs.all g := by
  rw [Bool.eq_iff_iff, List.all_eq_true, List.all_eq_true]
  exact forall₂_congr fun x hx => by rw [h x hx]

theorem all_isChar_attribute {name : String} (h : isName name) (value : List Char) :
    (Attribute.mk name (escaped value)).print.all isChar = value.all isChar := by
  have hfixed : isChar ' ' = true ∧ isChar '=' = true ∧ isChar '"' = true := by decide
  simp [Attribute.print, all_isChar_name h, all_isChar_escaped, hfixed]

theorem all_isChar_print {p : Piece} (h : p.Named) : (p.map escaped escaped).print.all isChar = p.isReadable := by
  have hfixed : isChar '<' = true ∧ isChar '>' = true := by decide
  have hmarks : p.form.lead.all isChar = true ∧ p.form.trail.all isChar = true := by cases p.form <;> decide
  have hattributes : ((p.map escaped escaped).attributes.flatMap Attribute.print).all isChar =
      p.attributes.all (·.value.all isChar) := by
    rw [Piece.map, List.all_flatMap, List.all_map]
    exact all_congr_of_mem fun a ha => all_isChar_attribute (h.attributes a ha) a.value
  rw [Piece.isReadable, ← all_isChar_escaped p.text, ← hattributes]
  simp [Piece.print, Piece.map, all_isChar_name h.name, hfixed, hmarks]

theorem read_write {ps : List Piece} (h : ∀ p ∈ ps, p.Named) :
    read (write ps) = if ps.all Piece.isReadable then document? (ps.map (Piece.map lineEnds flatten)) else none := by
  have hchars : (write ps).toList.all isChar = ps.all Piece.isReadable := by
    rw [write, String.toList_ofList, List.all_flatMap, List.all_map]
    exact all_congr_of_mem fun p hp => all_isChar_print (h p hp)
  -- The line ends could as well have been changed before escaping.
  set kept := ps.map (Piece.map lineEnds lineEnds) with hkept
  have hnamed : ∀ p ∈ kept, p.Named := by
    simpa [hkept] using fun p hp => (h p hp).map lineEnds lineEnds
  set cs := (kept.map (Piece.map escaped escaped)).flatMap Piece.print with hcs
  have hlines : lineEnds (write ps).toList = cs := by
    rw [write, String.toList_ofList, lineEnds_print (by simpa using fun p hp => (h p hp).map escaped escaped)]
    simp [hcs, hkept, Piece.map, lineEnds_escaped, Function.comp_def]
  have hscan : scan (cs.length + 1) cs = some (kept.map (Piece.map escaped escaped)) :=
    scan_print (by simpa using fun p hp => (hnamed p hp).delimited) (Nat.lt_succ_of_le (length_le_flatMap (by simp [Piece.print]) _))
  have hdecode : (kept.map (Piece.map escaped escaped)).mapM Piece.decode =
      some (ps.map (Piece.map lineEnds flatten)) := by
    have hpieces : kept.mapM (Piece.decode ∘ Piece.map escaped escaped) =
        some (kept.map (Piece.map id (List.map blank))) :=
      mapM_eq_some_map fun p hp => decode_escaped (hnamed p hp).nodup
    rw [List.mapM_map, hpieces]
    simp [hkept, Piece.map, Function.comp_def, map_blank_lineEnds]
  rw [read, hchars, hlines]
  simp only [hscan, Option.bind_eq_bind, Option.bind_some, hdecode]

/-- Tags that do not close each other are refused. -/
example : read "<a><b></a></b>" = none := by decide +kernel

end EclipseProject.Xml
