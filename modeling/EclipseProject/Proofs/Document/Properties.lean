import EclipseProject.Proofs.Document.Markup
import EclipseProject.Proofs.Text.Lines
import EclipseProject.Toml.Strings

/-!
# Reading properties

A reader of property files by the rules of Java. The text is cut at its line ends, lines that end in a backslash are joined
with the next, each line is cut into a key and a value, and these are decoded. A malformed escape fails the whole reading.

Decoding never makes a text longer, and shorter exactly if there is a backslash. This is what keeps a value with escapes
from being read as the text that was written.
-/

namespace EclipseProject.Properties

open Text

variable {c : Char} {cs ds k t v : List Char}

/-! ## Texts as Java has them -/

/-- One unit of sixteen bits, or the two surrogates. -/
def charUnits (c : Char) : List UInt16 :=
  if c.toNat < 0x10000 then [.ofNat c.toNat]
  else [.ofNat (0xD800 + (c.toNat - 0x10000) / 0x400), .ofNat (0xDC00 + (c.toNat - 0x10000) % 0x400)]

def units (cs : List Char) : List UInt16 := cs.flatMap charUnits

theorem units_cons (c : Char) (cs : List Char) : units (c :: cs) = charUnits c ++ units cs := List.flatMap_cons

theorem units_append (cs ds : List Char) : units (cs ++ ds) = units cs ++ units ds := List.flatMap_append

theorem length_charUnits_pos (c : Char) : 0 < (charUnits c).length := by
  unfold charUnits
  split <;> exact Nat.succ_pos _

theorem length_units_le (h : cs.Sublist ds) : (units cs).length ≤ (units ds).length := by
  induction h with
  | slnil => exact Nat.le_refl _
  | cons d _ ih =>
    rw [units_cons, List.length_append]
    omega
  | cons_cons d _ ih =>
    rw [units_cons, units_cons, List.length_append, List.length_append]
    omega

theorem eq_of_length_units (h : cs.Sublist ds) (hle : (units ds).length ≤ (units cs).length) : cs = ds := by
  induction h with
  | slnil => rfl
  | cons d h ih =>
    have hpos := length_charUnits_pos d
    have hlength := length_units_le h
    rw [units_cons, List.length_append] at hle
    omega
  | cons_cons d h ih =>
    rw [units_cons, units_cons, List.length_append, List.length_append] at hle
    rw [ih (by omega)]

theorem getLast?_units_concat (cs : List Char) (c : Char) : (units (cs ++ [c])).getLast? = (charUnits c).getLast? := by
  have hne : charUnits c ≠ [] := List.ne_nil_of_length_pos (length_charUnits_pos c)
  have hsingle : units [c] = charUnits c := List.append_nil _
  rw [units_append, hsingle, List.getLast?_append_of_ne_nil _ hne]

theorem charUnits_of_lt (hc : c.toNat < 0x10000) : charUnits c = [.ofNat c.toNat] := if_pos hc

theorem eq_of_getLast?_charUnits {d : Char} (hc : c.toNat < 0xD800) (h : (charUnits d).getLast? = (charUnits c).getLast?) :
    d = c := by
  rw [charUnits_of_lt (c := c) (by omega), List.getLast?_singleton, charUnits] at h
  split at h
  · rw [List.getLast?_singleton, Option.some.injEq, ← UInt16.toNat_inj, UInt16.toNat_ofNat', UInt16.toNat_ofNat'] at h
    exact Char.toNat_inj.mp (by omega)
  · rw [List.getLast?_cons_cons, List.getLast?_singleton, Option.some.injEq, ← UInt16.toNat_inj, UInt16.toNat_ofNat',
      UInt16.toNat_ofNat'] at h
    omega

theorem getLast?_of_units (hc : c.toNat < 0xD800) (h : (units cs).getLast? = (charUnits c).getLast?) :
    cs.getLast? = some c := by
  obtain rfl | ⟨init, d, rfl⟩ := List.eq_nil_or_concat' cs
  · rw [charUnits_of_lt (by omega)] at h
    cases h
  · rw [getLast?_units_concat] at h
    rw [List.getLast?_concat, eq_of_getLast?_charUnits hc h]

/-! ## Lines -/

def isSpace (c : Char) : Bool := c ∈ [' ', '\t', '\x0c']

def isSeparator (c : Char) : Bool := c ∈ ['=', ':']

def isComment (line : List Char) : Bool := line.head?.any (· ∈ ['#', '!'])

/-- A line goes on in the next one if the backslashes at its end are odd in number. -/
def continues (line : List Char) : Bool := (line.reverse.takeWhile (· = '\\')).length % 2 = 1

def naturalLines (cs : List Char) : List (List Char) := lines (Xml.lineEnds cs)

/-- The lines with those joined that go on, given what was joined so far. A line that is joined is never a comment. -/
def logicalLines : Option (List Char) → List (List Char) → List (List Char)
  | none, [] => []
  | some joined, [] => [joined]
  | joined, line :: more =>
    let line := line.dropWhile isSpace
    let whole := joined.getD [] ++ line
    if joined = none ∧ isComment line ∨ whole = [] then logicalLines none more
    else if continues line then logicalLines (some whole.dropLast) more
    else whole :: logicalLines none more

/-! ## Keys and values -/

/-- Cuts a line in front of the first blank or separator that no backslash escapes. -/
def cut : Bool → List Char → List Char × List Char
  | _, [] => ([], [])
  | escaped, c :: cs =>
    if escaped = false ∧ (isSpace c || isSeparator c) then ([], c :: cs)
    else
      let (k, rest) := cut (!escaped && c = '\\') cs
      (c :: k, rest)

/-- What is left behind the key without the blanks and at most one separator. -/
def valueOf (rest : List Char) : List Char :=
  match rest.dropWhile isSpace with
  | [] => []
  | c :: cs => if isSeparator c then cs.dropWhile isSpace else c :: cs

def unescape (c : Char) : Char :=
  if c = 't' then '\t' else if c = 'n' then '\n' else if c = 'r' then '\r' else if c = 'f' then '\x0c' else c

/-- Where a decoder stands: behind a backslash, or before a digit with how many more of them and the number so far. -/
inductive Mode where
  | plain
  | escaped
  | hex (more : Nat) (number : Nat)

def decode : Mode → List Char → Option (List UInt16)
  | .hex .., [] => none
  | _, [] => some []
  | .plain, c :: cs => if c = '\\' then decode .escaped cs else (decode .plain cs).map (charUnits c ++ ·)
  | .escaped, c :: cs =>
    if c = 'u' then decode (.hex 3 0) cs else (decode .plain cs).map (charUnits (unescape c) ++ ·)
  | .hex more n, c :: cs =>
    (Toml.hexValue? c).bind fun x =>
      match more with
      | 0 => (decode .plain cs).map (.ofNat (16 * n + x) :: ·)
      | more + 1 => decode (.hex more (16 * n + x)) cs

abbrev Table := List (List UInt16 × List UInt16)

def entry (line : List Char) : Option (List UInt16 × List UInt16) := do
  let (k, rest) := cut false line
  return (← decode .plain k, ← decode .plain (valueOf rest))

def read (text : String) : Option Table := (logicalLines none (naturalLines text.toList)).mapM entry

/-- Of several definitions of a key the last one counts. -/
def Table.value? (t : Table) (key : String) : Option (List UInt16) :=
  (t.reverse.find? (·.1 == units key.toList)).map Prod.snd

/-! ## Where the lines end -/

/-- A cut behind a carriage return could part it from a line feed. -/
theorem lineEnds_concat_append (hc : c ≠ '\r') (cs ds : List Char) :
    Xml.lineEnds (cs ++ [c] ++ ds) = Xml.lineEnds (cs ++ [c]) ++ Xml.lineEnds ds := by
  induction cs with
  | nil => simp [Xml.lineEnds, hc]
  | cons d cs ih =>
    have hhead : (cs ++ [c] ++ ds).head? = (cs ++ [c]).head? := by cases cs <;> rfl
    simp only [List.cons_append, Xml.lineEnds, hhead, ih]
    split
    · split <;> rfl
    · rfl

theorem filter_lineEnds (cs : List Char) :
    (Xml.lineEnds cs).filter (· ≠ '\n') = cs.filter fun c => c ≠ '\n' ∧ c ≠ '\r' := by
  induction cs with
  | nil => rfl
  | cons c cs ih =>
    rw [Xml.lineEnds]
    by_cases hc : c = '\r'
    · rw [if_pos hc, List.filter_cons_of_neg (by simp [hc]), ← ih]
      split <;> rfl
    · rw [if_neg hc, List.filter_cons, ih, List.filter_cons]
      simp [hc]

theorem flatten_naturalLines (cs : List Char) :
    (naturalLines cs).flatten = cs.filter fun c => c ≠ '\n' ∧ c ≠ '\r' :=
  (flatten_lines _).trans (filter_lineEnds cs)

/-- A carriage return and the line feed behind it are one line end. -/
theorem naturalLines_append_newline (cs : List Char) : ∃ before, (cs = before ∨ cs = before ++ ['\r']) ∧
    ∀ ds, naturalLines (cs ++ '\n' :: ds) = naturalLines before ++ naturalLines ds := by
  obtain rfl | ⟨init, c, rfl⟩ := List.eq_nil_or_concat' cs
  · exact ⟨[], Or.inl rfl, fun ds => lines_append_newline [] (Xml.lineEnds ds)⟩
  · by_cases hc : c = '\r'
    · refine ⟨init, Or.inr (by rw [hc]), fun ds => ?_⟩
      have hend : Xml.lineEnds ('\r' :: '\n' :: ds) = '\n' :: Xml.lineEnds ds := rfl
      rw [naturalLines, hc, List.append_assoc, List.singleton_append, Xml.lineEnds_append_cons (by decide), hend,
        lines_append_newline]
      rfl
    · refine ⟨init ++ [c], Or.inl rfl, fun ds => ?_⟩
      have hend : Xml.lineEnds ('\n' :: ds) = '\n' :: Xml.lineEnds ds := rfl
      rw [naturalLines, lineEnds_concat_append hc, hend, lines_append_newline]
      rfl

section
variable (h : ∀ c ∈ cs, c ≠ '\n' ∧ c ≠ '\r')
include h

theorem naturalLines_append (ds : List Char) : naturalLines (cs ++ '\n' :: ds) = cs :: naturalLines ds := by
  have hend : Xml.lineEnds ('\n' :: ds) = '\n' :: Xml.lineEnds ds := rfl
  rw [naturalLines, Xml.lineEnds_append_of_notMem fun hc => (h _ hc).2 rfl, hend, lines_append fun hc => (h _ hc).1 rfl]
  rfl

theorem naturalLines_append_line {line : List Char} {more : List (List Char)} (hs : naturalLines ds = line :: more) :
    naturalLines (cs ++ ds) = (cs ++ line) :: more := by
  rw [naturalLines, Xml.lineEnds_append_of_notMem fun hc => (h _ hc).2 rfl]
  exact lines_append_line (fun hc => (h _ hc).1 rfl) hs

theorem naturalLines_of_forall : naturalLines cs = [cs] := by
  rw [naturalLines, Xml.lineEnds_of_notMem fun hc => (h _ hc).2 rfl, lines_of_notMem fun hc => (h _ hc).1 rfl]

end

/-! ## Lines that are joined -/

theorem dropWhile_isSpace (h : ∀ c ∈ cs.head?, isSpace c = false) : cs.dropWhile isSpace = cs := by
  cases cs with
  | nil => rfl
  | cons c cs => simp [h c rfl]

theorem getLast?_of_continues {line : List Char} (h : continues line = true) : line.getLast? = some '\\' := by
  obtain rfl | ⟨init, c, rfl⟩ := List.eq_nil_or_concat' line
  · cases h
  · by_cases hc : c = '\\'
    · rw [List.getLast?_concat, hc]
    · simp [continues, hc] at h

theorem continues_eq_false {line : List Char} (h : '\\' ∉ line) : continues line = false :=
  Bool.eq_false_iff.mpr fun hc => h (List.mem_of_getLast? (getLast?_of_continues hc))

theorem logicalLines_none_cons {line : List Char} (hne : line ≠ [])
    (hhead : ∀ c ∈ line.head?, isSpace c = false ∧ c ∉ ['#', '!']) (more : List (List Char)) :
    logicalLines none (line :: more) =
      if continues line then logicalLines (some line.dropLast) more else line :: logicalLines none more := by
  have hcomment : isComment line = false := by
    rw [isComment, Option.any_eq_false]
    exact fun c hc => by simpa using (hhead c hc).2
  rw [logicalLines, dropWhile_isSpace fun c hc => (hhead c hc).1]
  simp [hcomment, hne]

/-! ## Keys -/

/-- What stands in a key for itself. -/
def isPlain (c : Char) : Bool := !isSpace c && !isSeparator c && c ∉ ['\\', '#', '!', '\n', '\r']

def IsKey (k : List Char) : Prop := k ≠ [] ∧ ∀ c ∈ k, isPlain c = true

instance (k : List Char) : Decidable (IsKey k) :=
  decidable_of_iff (k ≠ [] ∧ k.all isPlain = true) (and_congr_right fun _ => List.all_eq_true)

theorem isPlain_iff : isPlain c = true ↔ isSpace c = false ∧ isSeparator c = false ∧
    c ≠ '\\' ∧ c ≠ '#' ∧ c ≠ '!' ∧ c ≠ '\n' ∧ c ≠ '\r' := by
  simp [isPlain, and_assoc]

theorem cut_plain (hk : ∀ c ∈ k, isPlain c = true) (v : List Char) : cut false (k ++ '=' :: v) = (k, '=' :: v) := by
  induction k with
  | nil => rfl
  | cons c k ih =>
    obtain ⟨hc, hk⟩ := List.forall_mem_cons.mp hk
    obtain ⟨hspace, hseparator, hbackslash, _⟩ := isPlain_iff.mp hc
    simp [cut, hspace, hseparator, hbackslash, ih hk]

/-! ## Escapes -/

theorem decode_of_notMem (h : '\\' ∉ cs) : decode .plain cs = some (units cs) := by
  induction cs with
  | nil => rfl
  | cons c cs ih =>
    rw [List.mem_cons, not_or] at h
    rw [decode, if_neg (Ne.symm h.1), ih h.2, Option.map_some, units_cons]

theorem IsKey.head (hk : IsKey k) (v : List Char) : ∀ c ∈ (k ++ v).head?, isSpace c = false ∧ c ∉ ['#', '!'] := by
  obtain ⟨c, k, rfl⟩ := List.exists_cons_of_ne_nil hk.1
  intro d hd
  obtain rfl : c = d := Option.some.inj hd
  obtain ⟨hspace, _, _, hhash, hbang, _⟩ := isPlain_iff.mp (hk.2 _ (List.mem_cons_self ..))
  exact ⟨hspace, by simp [hhash, hbang]⟩

theorem IsKey.notMem (hk : IsKey k) : '\\' ∉ k := fun h => (isPlain_iff.mp (hk.2 _ h)).2.2.1 rfl

theorem entry_key (hk : IsKey k) (v : List Char) :
    entry (k ++ '=' :: v) = (decode .plain (v.dropWhile isSpace)).map (units k, ·) := by
  have hvalue : valueOf ('=' :: v) = v.dropWhile isSpace := rfl
  simp only [entry, cut_plain hk.2, decode_of_notMem hk.notMem, hvalue]
  cases decode .plain (v.dropWhile isSpace) <;> rfl

theorem length_charUnits_unescape_le (c : Char) : (charUnits (unescape c)).length ≤ (charUnits c).length := by
  by_cases hc : c ∈ ['t', 'n', 'r', 'f']
  · simp only [List.mem_cons, List.not_mem_nil, or_false] at hc
    rcases hc with rfl | rfl | rfl | rfl <;> decide
  · have hself : unescape c = c := by simp_all [unescape]
    exact Nat.le_of_eq (by rw [hself])

theorem decode_cons {mode : Mode} {us : List UInt16} (h : decode mode (c :: cs) = some us) :
    ∃ next front rest, decode next cs = some rest ∧ us = front ++ rest ∧ front.length ≤ (charUnits c).length := by
  cases mode with
  | plain =>
    rw [decode] at h
    split at h
    · exact ⟨_, [], us, h, rfl, Nat.zero_le _⟩
    · obtain ⟨rest, hrest, rfl⟩ := Option.map_eq_some_iff.mp h
      exact ⟨_, _, rest, hrest, rfl, Nat.le_refl _⟩
  | escaped =>
    rw [decode] at h
    split at h
    · exact ⟨_, [], us, h, rfl, Nat.zero_le _⟩
    · obtain ⟨rest, hrest, rfl⟩ := Option.map_eq_some_iff.mp h
      exact ⟨_, _, rest, hrest, rfl, length_charUnits_unescape_le c⟩
  | hex more n =>
    rw [decode] at h
    obtain ⟨x, _, h⟩ := Option.bind_eq_some_iff.mp h
    cases more with
    | zero =>
      obtain ⟨rest, hrest, rfl⟩ := Option.map_eq_some_iff.mp h
      exact ⟨_, [_], rest, hrest, rfl, length_charUnits_pos c⟩
    | succ more => exact ⟨_, [], us, h, rfl, Nat.zero_le _⟩

theorem length_decode_le {mode : Mode} {us : List UInt16} (h : decode mode cs = some us) :
    us.length ≤ (units cs).length := by
  induction cs generalizing mode us with
  | nil => cases mode <;> cases h <;> rfl
  | cons c cs ih =>
    obtain ⟨next, front, rest, hrest, rfl, hfront⟩ := decode_cons h
    rw [units_cons, List.length_append, List.length_append]
    exact Nat.add_le_add hfront (ih hrest)

theorem length_decode_lt {us : List UInt16} (hb : '\\' ∈ cs) (h : decode .plain cs = some us) :
    us.length < (units cs).length := by
  induction cs generalizing us with
  | nil => cases hb
  | cons c cs ih =>
    rw [decode] at h
    rw [units_cons, List.length_append]
    split at h
    · exact Nat.lt_of_le_of_lt (length_decode_le h) (Nat.lt_add_of_pos_left (length_charUnits_pos c))
    · next hc =>
      obtain ⟨rest, hrest, rfl⟩ := Option.map_eq_some_iff.mp h
      rw [List.length_append]
      exact Nat.add_lt_add_left (ih (List.mem_of_ne_of_mem (Ne.symm hc) hb) hrest) _

/-- Behind a character that no escape goes over all is read as it is. -/
theorem suffix_of_decode {mode : Mode} {us : List UInt16} (hc : Toml.hexValue? c = none) (hu : c ≠ 'u')
    (hbackslash : c ≠ '\\') (ht : '\\' ∉ t) (h : decode mode (cs ++ c :: t) = some us) : units t <:+ us := by
  induction cs generalizing mode us with
  | nil =>
    -- an escape that is still open ends with the character or cannot be read
    rw [List.nil_append] at h
    cases mode with
    | plain =>
      rw [decode, if_neg hbackslash, decode_of_notMem ht] at h
      cases h
      exact List.suffix_append _ _
    | escaped =>
      rw [decode, if_neg hu, decode_of_notMem ht] at h
      cases h
      exact List.suffix_append _ _
    | hex more n =>
      rw [decode, hc] at h
      cases h
  | cons d cs ih =>
    obtain ⟨next, front, rest, hrest, rfl, _⟩ := decode_cons h
    exact (ih hrest).trans (List.suffix_append _ _)

/-! ## Values -/

/-- A value that is read as it was written. -/
def IsVerbatim (v : List Char) : Prop := (∀ c ∈ v, c ∉ ['\n', '\r', '\\']) ∧ ∀ c ∈ v.head?, isSpace c = false

instance (v : List Char) : Decidable (IsVerbatim v) :=
  decidable_of_iff (v.all (· ∉ ['\n', '\r', '\\']) = true ∧ v.head?.all (!isSpace ·) = true)
    (by cases v <;> simp [IsVerbatim])

theorem IsVerbatim.notMem (hv : IsVerbatim v) : '\\' ∉ v := fun h => hv.1 _ h (by simp)

theorem entry_verbatim (hk : IsKey k) (hv : IsVerbatim v) : entry (k ++ '=' :: v) = some (units k, units v) := by
  rw [entry_key hk, dropWhile_isSpace hv.2, decode_of_notMem hv.notMem, Option.map_some]

theorem valueOf_suffix (cs : List Char) : valueOf cs <:+ cs := by
  have hdrop := List.dropWhile_suffix isSpace (l := cs)
  unfold valueOf
  split
  · next h => exact List.nil_suffix
  · next c ds h =>
    rw [h] at hdrop
    split
    · exact (List.dropWhile_suffix isSpace).trans ((List.suffix_cons c ds).trans hdrop)
    · exact hdrop

theorem isSpace_head?_dropWhile (cs : List Char) : ∀ c ∈ (cs.dropWhile isSpace).head?, isSpace c = false := by
  intro c hc
  have h := List.head?_dropWhile_not isSpace cs
  rw [hc] at h
  exact h

theorem isSpace_head?_valueOf (cs : List Char) : ∀ c ∈ (valueOf cs).head?, isSpace c = false := by
  have hdrop := isSpace_head?_dropWhile cs
  unfold valueOf
  split
  · simp
  · next c ds h =>
    rw [h] at hdrop
    split
    · exact isSpace_head?_dropWhile ds
    · exact hdrop

theorem cut_suffix (escaped : Bool) (cs : List Char) : (cut escaped cs).2 <:+ cs := by
  induction cs generalizing escaped with
  | nil => exact List.suffix_rfl
  | cons c cs ih =>
    rw [cut]
    split
    · exact List.suffix_rfl
    · exact (ih _).trans (List.suffix_cons c cs)

theorem suffix_cut (hk : '\\' ∉ k) (t : List Char) : '=' :: t <:+ (cut false (k ++ '=' :: t)).2 := by
  induction k with
  | nil => exact List.suffix_rfl
  | cons c k ih =>
    rw [List.mem_cons, not_or] at hk
    have hnext : (!false && decide (c = '\\')) = false := by simp [Ne.symm hk.1]
    rw [List.cons_append, cut, hnext]
    split
    · exact List.suffix_append (c :: k) _
    · exact ih hk.2

theorem suffix_cut_append (escaped : Bool) (hc : c ≠ '\\') (hk : '\\' ∉ k) (cs t : List Char) :
    '=' :: t <:+ (cut escaped (cs ++ c :: k ++ '=' :: t)).2 := by
  induction cs generalizing escaped with
  | nil =>
    have hnext : (!escaped && decide (c = '\\')) = false := by simp [hc]
    rw [List.nil_append, List.cons_append, cut, hnext]
    split
    · exact List.suffix_append (c :: k) _
    · exact suffix_cut hk t
  | cons d cs ih =>
    rw [List.cons_append, List.cons_append, cut]
    split
    · exact List.suffix_append (d :: (cs ++ c :: k)) _
    · exact ih _

theorem suffix_dropWhile (hc : isSpace c = false) (h : c :: t <:+ cs) : c :: t <:+ cs.dropWhile isSpace := by
  obtain ⟨front, rfl⟩ := h
  induction front with
  | nil => simp [hc]
  | cons d front ih =>
    rw [List.cons_append, List.dropWhile_cons]
    split
    · exact ih
    · exact List.suffix_append (d :: front) _

theorem suffix_valueOf (ht : ∀ c ∈ t.head?, isSpace c = false) (h : '=' :: t <:+ cs) : t <:+ valueOf cs := by
  have hdrop := suffix_dropWhile (by decide) h
  unfold valueOf
  split
  · next hnil => simp [hnil] at hdrop
  · next c ds hcons =>
    rw [hcons, List.suffix_cons_iff] at hdrop
    split
    · obtain heq | hds := hdrop
      · obtain ⟨_, rfl⟩ := List.cons.inj heq
        rw [dropWhile_isSpace ht]
      · exact (List.suffix_cons '=' t).trans (suffix_dropWhile (by decide) hds)
    · next hc =>
      obtain heq | hds := hdrop
      · exact absurd ((List.cons.inj heq).1 ▸ rfl) hc
      · exact (List.suffix_cons '=' t).trans (hds.trans (List.suffix_cons c ds))

/-- What is read from a part of a text as the whole text is the whole text, and verbatim. -/
theorem isVerbatim_of_decode (hsub : v.Sublist (cs.filter fun c => c ≠ '\n' ∧ c ≠ '\r'))
    (hhead : ∀ c ∈ v.head?, isSpace c = false) (h : decode .plain v = some (units cs)) : IsVerbatim cs := by
  have hle := length_decode_le h
  have hv : v = cs := eq_of_length_units (hsub.trans List.filter_sublist) hle
  have hbackslash : '\\' ∉ v := fun hb => absurd (length_decode_lt hb h) (by rw [hv]; exact Nat.lt_irrefl _)
  rw [hv] at hsub hhead hbackslash
  refine ⟨fun c hc => ?_, hhead⟩
  have hends := List.of_mem_filter (hsub.subset hc)
  simp only [decide_eq_true_eq] at hends
  simp only [List.mem_cons, List.not_mem_nil, or_false, not_or]
  exact ⟨hends.1, hends.2, fun hb => hbackslash (hb ▸ hc)⟩

theorem Table.mem_of_value? {table : Table} {key : String} {us : List UInt16} (h : table.value? key = some us) :
    (units key.toList, us) ∈ table := by
  obtain ⟨e, he, rfl⟩ := Option.map_eq_some_iff.mp h
  have hkey : e.1 = units key.toList := by simpa using List.find?_some he
  rw [← hkey]
  exact List.mem_reverse.mp (List.mem_of_find?_eq_some he)

/-! ## Lines that a text is spread over -/

theorem logicalLines_cons_cases (joined : Option (List Char)) (line : List Char) (more : List (List Char)) :
    let rest := line.dropWhile isSpace
    let whole := joined.getD [] ++ rest
    logicalLines joined (line :: more) = logicalLines none more ∨
      continues rest = true ∧ logicalLines joined (line :: more) = logicalLines (some whole.dropLast) more ∨
      logicalLines joined (line :: more) = whole :: logicalLines none more := by
  intro rest whole
  rw [logicalLines]
  split
  · exact Or.inl rfl
  · split
    · next hc => exact Or.inr (Or.inl ⟨hc, rfl⟩)
    · exact Or.inr (Or.inr rfl)

theorem getLast?_of_continues_dropWhile {line : List Char} (h : continues (line.dropWhile isSpace) = true) :
    line.getLast? = some '\\' := by
  have hlast := getLast?_of_continues h
  have hsplit := List.takeWhile_append_dropWhile (p := isSpace) (l := line)
  rw [← hsplit, List.getLast?_append, hlast, Option.some_or]

theorem forall_mem_getLast?_cons {P : List Char → Prop} {line : List Char} {more : List (List Char)}
    (hline : more = [] → P line) (hmore : ∀ l ∈ more.getLast?, P l) : ∀ l ∈ (line :: more).getLast?, P l := by
  cases more with
  | nil => simpa using hline rfl
  | cons l more =>
    rw [List.getLast?_cons_cons]
    exact hmore

theorem getLast?_flatten_of_forall {ls : List (List Char)} (hne : ls ≠ []) (h : ∀ l ∈ ls.getLast?, l.getLast? = some c) :
    ls.flatten.getLast? = some c := by
  obtain rfl | ⟨init, l, rfl⟩ := List.eq_nil_or_concat' ls
  · exact absurd rfl hne
  · rw [List.flatten_concat, List.getLast?_append, h l List.getLast?_concat, Option.some_or]

/-- Part of a text, or of the text behind the front. -/
def Within (front text whole : List Char) : Prop := ∃ p ∈ [[], front], ∃ part, whole = p ++ part ∧ part.Sublist text

section
variable {front text last whole : List Char} {joined : Option (List Char)} {ls : List (List Char)}
variable (hne : last ≠ []) (hhead : ∀ c ∈ last.head?, isSpace c = false ∧ c ∉ ['#', '!']) (hends : '\\' ∉ last)
include hne hhead hends

/-- Lines are joined to parts of the text, until the last line stands alone or is joined to the line before. -/
theorem mem_logicalLines
    (hjoined : ∃ p ∈ [[], front], ∃ part, joined.getD [] = p ++ part ∧ (part ++ ls.flatten).Sublist text)
    (h : whole ∈ logicalLines joined (ls ++ [last])) : Within front text whole ∨ whole = last ∨
      (∃ before, whole = before ++ last) ∧ (ls = [] → joined.isSome) ∧ ∀ l ∈ ls.getLast?, l.getLast? = some '\\' := by
  induction ls generalizing joined with
  | nil =>
    rw [List.nil_append] at h
    cases joined with
    | none =>
      rw [logicalLines_none_cons hne hhead, continues_eq_false hends] at h
      exact Or.inr (Or.inl (List.mem_singleton.mp h))
    | some before =>
      have hdrop := dropWhile_isSpace fun c hc => (hhead c hc).1
      simp [logicalLines, hdrop, hne, continues_eq_false hends] at h
      exact Or.inr (Or.inr ⟨⟨before, h⟩, fun _ => rfl, by simp⟩)
  | cons line more ih =>
    obtain ⟨p, hp, part, hfront, hpart⟩ := hjoined
    have hline : (part ++ line.dropWhile isSpace ++ more.flatten).Sublist text := by
      refine List.Sublist.trans ?_ hpart
      rw [List.flatten_cons, ← List.append_assoc]
      exact ((List.dropWhile_sublist isSpace).append_left part).append_right _
    -- the next line begins anew
    have hfresh : whole ∈ logicalLines none (more ++ [last]) → Within front text whole ∨ whole = last ∨
        (∃ before, whole = before ++ last) ∧ (line :: more = [] → joined.isSome) ∧
          ∀ l ∈ (line :: more).getLast?, l.getLast? = some '\\' := by
      intro h
      refine (ih ⟨[], by simp, [], rfl, (List.sublist_append_right _ _).trans hline⟩ h).imp_right (Or.imp_right ?_)
      exact fun ⟨hwhole, hnone, hmore⟩ => ⟨hwhole, by simp, forall_mem_getLast?_cons (fun e => by cases hnone e) hmore⟩
    rw [List.cons_append] at h
    obtain heq | ⟨hcontinues, heq⟩ | heq := logicalLines_cons_cases joined line (more ++ [last])
    · exact hfresh (heq ▸ h)
    · rw [heq, hfront, List.append_assoc] at h
      have hrest : part ++ line.dropWhile isSpace ≠ [] := fun e => by
        rw [(List.append_eq_nil_iff.mp e).2] at hcontinues
        cases hcontinues
      rw [List.dropLast_append_of_ne_nil hrest] at h
      refine (ih ⟨p, hp, _, rfl, ?_⟩ h).imp_right (Or.imp_right fun ⟨hwhole, _, hmore⟩ => ⟨hwhole, by simp, ?_⟩)
      · exact ((List.dropLast_sublist _).append_right _).trans hline
      · exact forall_mem_getLast?_cons (fun _ => getLast?_of_continues_dropWhile hcontinues) hmore
    · rw [heq, hfront, List.append_assoc] at h
      obtain rfl | h := List.mem_cons.mp h
      · exact Or.inl ⟨p, hp, _, rfl, (List.sublist_append_left _ _).trans hline⟩
      · exact hfresh h

theorem mem_logicalLines_key (hk : IsKey k) {part : List Char} {more : List (List Char)}
    (hpart : (part ++ more.flatten).Sublist text)
    (h : whole ∈ logicalLines none ((k ++ '=' :: part) :: more ++ [last])) :
    Within (k ++ ['=']) text whole ∨ whole = last ∨
      (∃ before, whole = before ++ last) ∧ ∀ l ∈ ((k ++ '=' :: part) :: more).getLast?, l.getLast? = some '\\' := by
  have hfront : k ++ '=' :: part = (k ++ ['=']) ++ part := by simp
  rw [List.cons_append, logicalLines_none_cons (by simp) (hk.head _)] at h
  split at h
  · next hcontinues =>
    have hsome : part ≠ [] := by
      rintro rfl
      have hlast := getLast?_of_continues hcontinues
      simp at hlast
    rw [hfront, List.dropLast_append_of_ne_nil hsome] at h
    have hsub := ((List.dropLast_sublist part).append_right more.flatten).trans hpart
    refine (mem_logicalLines hne hhead hends ⟨k ++ ['='], by simp, _, rfl, hsub⟩ h).imp_right (Or.imp_right ?_)
    exact fun ⟨hwhole, _, hmore⟩ => ⟨hwhole, forall_mem_getLast?_cons (fun _ => getLast?_of_continues hcontinues) hmore⟩
  · obtain rfl | h := List.mem_cons.mp h
    · exact Or.inl ⟨k ++ ['='], by simp, part, hfront, (List.sublist_append_left part _).trans hpart⟩
    · have hsub : ([] ++ more.flatten).Sublist text := (List.sublist_append_right part _).trans hpart
      refine (mem_logicalLines hne hhead hends ⟨[], by simp, [], rfl, hsub⟩ h).imp_right (Or.imp_right ?_)
      exact fun ⟨hwhole, hnone, hmore⟩ => ⟨hwhole, forall_mem_getLast?_cons (fun e => by cases hnone e) hmore⟩

end

/-! ## What is read of such lines -/

theorem entry_eq_some {line : List Char} {e : List UInt16 × List UInt16} (h : entry line = some e) :
    decode .plain (valueOf (cut false line).2) = some e.2 := by
  unfold entry at h
  obtain ⟨key, _, h⟩ := Option.bind_eq_some_iff.mp h
  obtain ⟨value, hvalue, h⟩ := Option.bind_eq_some_iff.mp h
  cases h
  exact hvalue

theorem isVerbatim_of_within (hk : IsKey k) {whole : List Char} {e : List UInt16 × List UInt16}
    (hwhole : Within (k ++ ['=']) (cs.filter fun c => c ≠ '\n' ∧ c ≠ '\r') whole) (h : entry whole = some e)
    (he : e.2 = units cs) : IsVerbatim cs := by
  obtain ⟨p, hp, part, rfl, hpart⟩ := hwhole
  have hdecode := entry_eq_some h
  rw [he] at hdecode
  obtain rfl | hp := List.mem_cons.mp hp
  · have hsub := ((valueOf_suffix _).trans (cut_suffix false part)).sublist
    exact isVerbatim_of_decode (hsub.trans hpart) (isSpace_head?_valueOf _) hdecode
  · have hvalue : valueOf (cut false (p ++ part)).2 = part.dropWhile isSpace := by
      rw [List.mem_singleton.mp hp, List.append_assoc, List.singleton_append, cut_plain hk.2]
      rfl
    rw [hvalue] at hdecode
    exact isVerbatim_of_decode ((List.dropWhile_sublist isSpace).trans hpart) (isSpace_head?_dropWhile part) hdecode

/-- Whatever a last line with the value true is joined to, the value ends as that line does. -/
theorem getLast?_of_joined (hk : IsKey k) {before : List Char} {e : List UInt16 × List UInt16}
    (h : entry (before ++ (k ++ '=' :: "true".toList)) = some e) (he : e.2 = units cs) : cs.getLast? = some 'e' := by
  obtain ⟨c, k, rfl⟩ := List.exists_cons_of_ne_nil hk.1
  have hb := hk.notMem
  rw [List.mem_cons, not_or] at hb
  have hcut := suffix_cut_append false (Ne.symm hb.1) hb.2 before "true".toList
  rw [List.append_assoc] at hcut
  have ht : ∀ d ∈ "true".toList.head?, isSpace d = false := by
    intro d hd
    obtain rfl : 't' = d := Option.some.inj hd
    decide
  obtain ⟨front, hfront⟩ := suffix_valueOf ht hcut
  have hdecode := entry_eq_some h
  rw [← hfront] at hdecode
  obtain ⟨us, hus⟩ := suffix_of_decode (c := 't') (t := "rue".toList) (by decide) (by decide) (by decide) (by decide) hdecode
  have hlast : (units "rue".toList).getLast? = (charUnits 'e').getLast? := by decide
  refine getLast?_of_units (by decide) ?_
  rw [← he, ← hus, List.getLast?_append, hlast, charUnits_of_lt (by decide)]
  rfl

end EclipseProject.Properties
