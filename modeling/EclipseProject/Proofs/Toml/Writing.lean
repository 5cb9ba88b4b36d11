import EclipseProject.Proofs.Text.Pieces
import EclipseProject.Proofs.Toml.Distinct
import Mathlib.Data.List.Forall2

/-!
# Writing, and reading what was written

Strings, arrays of strings, keys and pairs as they can be written, each with what a reader makes of it. What follows
in the text is left to the reader of the next piece.
-/

namespace EclipseProject.Toml

/-! ## Strings -/

/-- The last four hexadecimal digits of a number. -/
def hexDigits (n : Nat) : List Char :=
  [n / 4096 % 16, n / 256 % 16, n / 16 % 16, n % 16].map Nat.digitChar

def isControl (c : Char) : Bool := c.toNat < 0x20 || (0x7F ≤ c.toNat && c.toNat ≤ 0x9F)

def escapeChar (c : Char) : List Char :=
  if c = '"' ∨ c = '\\' then ['\\', c] else if isControl c then '\\' :: 'u' :: hexDigits c.toNat else [c]

/-- A basic string, in which quotes, backslashes and control characters are escaped. -/
def quoted (s : String) : List Char := '"' :: s.toList.flatMap escapeChar ++ ['"']

theorem hexValue?_digitChar {n : Nat} (h : n < 16) : hexValue? n.digitChar = some n := by
  revert n
  decide

theorem hexChar?_hexDigits {c : Char} (h : c.toNat < 0x10000) : hexChar? (hexDigits c.toNat) = some c := by
  have hmod (n : Nat) : hexValue? (n % 16).digitChar = some (n % 16) := hexValue?_digitChar (Nat.mod_lt n (by decide))
  have hnumber : hexNumber? (hexDigits c.toNat) = some c.toNat := by
    simp only [hexNumber?, hexDigits, List.map_cons, List.map_nil, List.foldlM_cons, List.foldlM_nil, hmod,
      Option.map_some, Option.bind_eq_bind, Option.bind_some, Option.pure_def, Option.some.injEq]
    omega
  rw [hexChar?, hnumber, Option.bind_some, scalar?, if_pos (show c.toNat.isValidChar from c.valid),
    Char.ofNat_toNat]

theorem isText_of_not_isControl {c : Char} (h : isControl c = false) : isText c = true := by
  simp only [isControl, isText, Bool.or_eq_false_iff, decide_eq_false_iff_not, Bool.and_eq_false_iff,
    Bool.or_eq_true, decide_eq_true_eq, Bool.and_eq_true] at h ⊢
  omega

theorem basicRest_escapeChar (c : Char) (cs : List Char) :
    basicRest (escapeChar c ++ cs) = consTo c (basicRest cs) := by
  unfold escapeChar
  split
  · next h =>
    obtain rfl | rfl := h
    · rfl
    · rfl
  · next h =>
    obtain ⟨hquote, hbackslash⟩ := not_or.mp h
    split
    · next hcontrol =>
      have hlt : c.toNat < 0x10000 := by
        simp only [isControl, Bool.or_eq_true, decide_eq_true_eq, Bool.and_eq_true] at hcontrol
        omega
      show (hexChar? (hexDigits c.toNat)).bind (consTo · (basicRest cs)) = _
      rw [hexChar?_hexDigits hlt, Option.bind_some]
    · next hcontrol =>
      have htext := isText_of_not_isControl (Bool.eq_false_iff.mpr hcontrol)
      rw [List.singleton_append, basicRest]
      · simp [htext, hbackslash]
      · simp [hquote]
      · simp [hbackslash]
      · simp [hbackslash]
      · simp [hbackslash]

theorem basicRest_flatMap_escapeChar (cs rest : List Char) :
    basicRest (cs.flatMap escapeChar ++ '"' :: rest) = some (cs, rest) := by
  induction cs with
  | nil => rfl
  | cons c cs ih =>
    rw [List.flatMap_cons, List.append_assoc, basicRest_escapeChar, ih]
    rfl

theorem quoted_append (s : String) (rest : List Char) :
    quoted s ++ rest = '"' :: (s.toList.flatMap escapeChar ++ '"' :: rest) := by simp [quoted]

theorem shortString_quoted (s : String) (rest : List Char) : shortString (quoted s ++ rest) = some (s, rest) := by
  rw [quoted_append, shortString, basicRest_flatMap_escapeChar, Option.map_some, String.ofList_toList]

theorem escapeChar_ne_quote (c : Char) (cs rest : List Char) : escapeChar c ++ cs ≠ '"' :: rest := by
  unfold escapeChar
  split
  · simp
  · split <;> simp_all

theorem string_eq_shortString {cs : List Char} (h : ∀ rest, cs ≠ '"' :: '"' :: rest) :
    string ('"' :: cs) = shortString ('"' :: cs) := by
  rw [string]
  · simpa using h
  · simp

/-- Two quotes and a third one would open a string of several lines. -/
theorem string_quoted (s : String) {rest : List Char} (h : rest.head? ≠ some '"') :
    string (quoted s ++ rest) = some (s, rest) := by
  rw [← shortString_quoted, quoted_append]
  refine string_eq_shortString fun more => ?_
  cases s.toList with
  | nil =>
    intro hmore
    obtain rfl := (List.cons.inj hmore).2
    exact h rfl
  | cons c cs =>
    rw [List.flatMap_cons, List.append_assoc]
    exact escapeChar_ne_quote c _ _

/-! ## Values -/

/-- Characters that are read as the value, whatever follows that is no quote. -/
structure IsValue (nesting : Nat) (w : List Char) (v : Value) : Prop where
  reads : ∀ rest : List Char, rest.head? ≠ some '"' → valueUpTo nesting (w ++ rest) = some (v, rest)
  skipSpaces : ∀ rest : List Char, skipSpaces (w ++ rest) = w ++ rest

theorem isValue_quoted (nesting : Nat) (s : String) : IsValue nesting (quoted s) (.string s) where
  reads rest h := by
    rw [quoted_append, valueUpTo, ← quoted_append, string_quoted s h]
    rfl
  skipSpaces rest := by
    rw [quoted_append]
    rfl

def commaSeparated (ws : List (List Char)) : List Char := [',', ' '].intercalate ws

def array (ss : List String) : List Char := '[' :: commaSeparated (ss.map quoted) ++ [']']

theorem elements_space (element : Reader Value) (n : Nat) (cs : List Char) :
    elements element n (' ' :: cs) = elements element n cs := by
  cases n <;> rfl

theorem elements_quoted_bracket (nesting n : Nat) (s : String) (rest : List Char) :
    elements (valueUpTo nesting) (n + 1) (quoted s ++ ']' :: rest) = some ([.string s], rest) := by
  have hread := (isValue_quoted nesting s).reads (']' :: rest) (by simp)
  rw [quoted_append] at hread ⊢
  show (valueUpTo nesting ('"' :: _)).bind _ = _
  rw [hread]
  rfl

theorem elements_quoted_comma (nesting n : Nat) (s : String) (more : List Char) :
    elements (valueUpTo nesting) (n + 1) (quoted s ++ ',' :: more) =
      (elements (valueUpTo nesting) n more).map fun x => (.string s :: x.1, x.2) := by
  have hread := (isValue_quoted nesting s).reads (',' :: more) (by simp)
  rw [quoted_append] at hread ⊢
  show (valueUpTo nesting ('"' :: _)).bind _ = _
  rw [hread, Option.bind_some]
  show (elements (valueUpTo nesting) n more).bind _ = _
  cases elements (valueUpTo nesting) n more <;> rfl

theorem elements_quoted (nesting : Nat) (ss : List String) (rest : List Char) {n : Nat} (hn : ss.length < n) :
    elements (valueUpTo nesting) n (commaSeparated (ss.map quoted) ++ ']' :: rest) = some (ss.map .string, rest) := by
  induction ss generalizing n with
  | nil =>
    obtain ⟨n, rfl⟩ := Nat.exists_eq_succ_of_ne_zero (Nat.ne_of_gt hn)
    rfl
  | cons s ss ih =>
    obtain ⟨n, rfl⟩ := Nat.exists_eq_succ_of_ne_zero (Nat.ne_of_gt (Nat.zero_lt_of_lt hn))
    cases ss with
    | nil =>
      rw [commaSeparated, List.map_singleton, List.intercalate_singleton, elements_quoted_bracket]
      rfl
    | cons t ss =>
      have hmore := ih (n := n) (Nat.lt_of_succ_lt_succ hn)
      simp only [commaSeparated, List.map_cons, List.intercalate_cons_cons, List.append_assoc, List.cons_append,
        List.nil_append] at hmore ⊢
      rw [elements_quoted_comma, elements_space, hmore]
      rfl

theorem length_le_commaSeparated {ws : List (List Char)} (h : ∀ w ∈ ws, w ≠ []) :
    ws.length ≤ (commaSeparated ws).length := by
  induction ws with
  | nil => exact Nat.zero_le _
  | cons w ws ih =>
    obtain ⟨hw, hws⟩ := List.forall_mem_cons.mp h
    have hpos := List.length_pos_iff.mpr hw
    cases ws with
    | nil =>
      rw [commaSeparated, List.intercalate_singleton]
      exact hpos
    | cons x ws =>
      have hle := ih hws
      simp only [commaSeparated, List.intercalate_cons_cons, List.length_append, List.length_cons] at hle ⊢
      omega

theorem quoted_ne_nil (s : String) : quoted s ≠ [] := by simp [quoted]

theorem isValue_array (nesting : Nat) (ss : List String) :
    IsValue (nesting + 1) (array ss) (.array (ss.map .string)) where
  reads rest _ := by
    have hlength := @length_le_commaSeparated (ss.map quoted) (by simp [quoted_ne_nil])
    have helements := elements_quoted nesting ss rest
      (n := (commaSeparated (ss.map quoted) ++ ']' :: rest).length + 1)
      (by simp only [List.length_map, List.length_append, List.length_cons] at hlength ⊢; omega)
    rw [array, List.cons_append, List.cons_append, List.append_assoc, List.singleton_append, valueUpTo, helements]
    rfl
  skipSpaces rest := rfl

/-! ## Keys -/

def StartsKey (w : List Char) : Prop := ∃ (c : Char) (cs : List Char), w = c :: cs ∧ (c = '"' ∨ isBareKey c = true)

/-- Characters that are read as the key, up to spaces and then an equals sign or a closing bracket. -/
structure IsKey (w : List Char) (path : KeyPath) : Prop where
  reads : ∀ (cs : List Char) (c : Char) (more : List Char), skipSpaces cs = c :: more → c = '=' ∨ c = ']' →
    keyPath (w ++ cs) = some (path, c :: more)
  startsKey : StartsKey w

theorem keyPathUpTo_end {n : Nat} {cs rest more : List Char} {key : String} {c : Char}
    (hkey : simpleKey (skipSpaces cs) = some (key, rest)) (hrest : skipSpaces rest = c :: more) (hc : c ≠ '.') :
    keyPathUpTo (n + 1) cs = some (⟨[], key⟩, c :: more) := by
  rw [keyPathUpTo, hkey, Option.bind_eq_bind, Option.bind_some]
  dsimp only
  rw [hrest]
  split
  · simp_all
  · rfl

theorem keyPathUpTo_dot {n : Nat} {cs rest more : List Char} {key : String} {path : KeyPath}
    (hkey : simpleKey (skipSpaces cs) = some (key, '.' :: more)) (hmore : keyPathUpTo n more = some (path, rest)) :
    keyPathUpTo (n + 1) cs = some (⟨key :: path.parents, path.last⟩, rest) := by
  rw [keyPathUpTo, hkey, Option.bind_eq_bind, Option.bind_some]
  show (keyPathUpTo n more).bind _ = _
  rw [hmore]
  rfl

theorem skipSpaces_cons {c : Char} (h : isSpace c = false) (cs : List Char) : skipSpaces (c :: cs) = c :: cs := by
  simp [skipSpaces, h]

def IsBare (k : String) : Prop := k.toList ≠ [] ∧ k.toList.all isBareKey = true

instance (k : String) : Decidable (IsBare k) := inferInstanceAs (Decidable (_ ∧ _))

theorem ne_of_isBareKey {c d : Char} (h : isBareKey c = true) (hd : isBareKey d = false) : c ≠ d := by
  intro hcd
  rw [hcd, hd] at h
  cases h

theorem not_isSpace_of_isBareKey {c : Char} (h : isBareKey c = true) : isSpace c = false := by
  rw [Bool.eq_false_iff]
  intro hspace
  simp only [isSpace, Bool.or_eq_true, beq_iff_eq] at hspace
  exact hspace.elim (ne_of_isBareKey h (by decide)) (ne_of_isBareKey h (by decide))

theorem IsBare.head {k : String} (hk : IsBare k) : ∃ c cs, k.toList = c :: cs ∧ isBareKey c = true := by
  obtain ⟨c, cs, h⟩ := List.exists_cons_of_ne_nil hk.1
  exact ⟨c, cs, h, List.all_eq_true.mp hk.2 c (by simp [h])⟩

theorem simpleKey_bare {k : String} (hk : IsBare k) {c : Char} (hc : isBareKey c = false) (cs : List Char) :
    simpleKey (k.toList ++ c :: cs) = some (k, c :: cs) := by
  have hall := List.all_eq_true.mp hk.2
  have htake : (k.toList ++ c :: cs).takeWhile isBareKey = k.toList := Text.takeWhile_run hall (by simpa using hc)
  have hdrop : (k.toList ++ c :: cs).dropWhile isBareKey = c :: cs := Text.dropWhile_run hall (by simpa using hc)
  have hbare : bareKey (k.toList ++ c :: cs) = some (k, c :: cs) := by
    rw [bareKey, htake, hdrop, if_neg hk.1, String.ofList_toList]
  obtain ⟨d, ds, hd, hdbare⟩ := hk.head
  rw [hd, List.cons_append] at hbare ⊢
  rw [simpleKey, hbare]
  · exact fun rest h => ne_of_isBareKey hdbare (by decide) (List.cons.inj h).1
  · exact fun rest h => ne_of_isBareKey hdbare (by decide) (List.cons.inj h).1

theorem simpleKey_quoted (k : String) (cs : List Char) : simpleKey (quoted k ++ cs) = some (k, cs) := by
  rw [quoted_append, simpleKey, ← quoted_append, shortString_quoted]

theorem skipSpaces_quoted (k : String) (cs : List Char) : skipSpaces (quoted k ++ cs) = quoted k ++ cs := by
  rw [quoted_append]
  rfl

theorem skipSpaces_bare {k : String} (hk : IsBare k) (cs : List Char) :
    skipSpaces (k.toList ++ cs) = k.toList ++ cs := by
  obtain ⟨c, more, hc, hbare⟩ := hk.head
  rw [hc, List.cons_append, skipSpaces_cons (not_isSpace_of_isBareKey hbare)]

/-- What ends a key is no part of a bare one. -/
theorem not_isBareKey_of_skipSpaces {cs more : List Char} {c : Char} (h : skipSpaces cs = c :: more)
    (hc : c = '=' ∨ c = ']') : ∃ d ds, cs = d :: ds ∧ isBareKey d = false := by
  cases cs with
  | nil => cases h
  | cons d ds =>
    refine ⟨d, ds, rfl, Bool.eq_false_iff.mpr fun hbare => ?_⟩
    rw [skipSpaces_cons (not_isSpace_of_isBareKey hbare)] at h
    obtain ⟨rfl, _⟩ := List.cons.inj h
    exact hc.elim (ne_of_isBareKey hbare (by decide)) (ne_of_isBareKey hbare (by decide))

theorem ne_dot_of_ends {c : Char} (hc : c = '=' ∨ c = ']') : c ≠ '.' := by
  obtain rfl | rfl := hc <;> decide

theorem keyPathUpTo_quoted {n : Nat} (k : String) {cs more : List Char} {c : Char} (hcs : skipSpaces cs = c :: more)
    (hc : c = '=' ∨ c = ']') : keyPathUpTo (n + 1) (quoted k ++ cs) = some (⟨[], k⟩, c :: more) :=
  keyPathUpTo_end (by rw [skipSpaces_quoted, simpleKey_quoted]) hcs (ne_dot_of_ends hc)

theorem isKey_quoted (k : String) : IsKey (quoted k) ⟨[], k⟩ where
  reads _ _ _ hcs hc := keyPathUpTo_quoted k hcs hc
  startsKey := ⟨'"', _, rfl, .inl rfl⟩

theorem isKey_bare {k : String} (hk : IsBare k) : IsKey k.toList ⟨[], k⟩ where
  reads cs c more hcs hc := by
    obtain ⟨d, ds, rfl, hd⟩ := not_isBareKey_of_skipSpaces hcs hc
    exact keyPathUpTo_end (by rw [skipSpaces_bare hk, simpleKey_bare hk hd]) hcs (ne_dot_of_ends hc)
  startsKey := by
    obtain ⟨c, cs, hcs, hc⟩ := hk.head
    exact ⟨c, cs, hcs, .inr hc⟩

theorem isKey_dotted {k : String} (hk : IsBare k) (l : String) : IsKey (k.toList ++ '.' :: quoted l) ⟨[k], l⟩ where
  reads cs c more hcs hc := by
    rw [List.append_assoc, List.cons_append]
    exact keyPathUpTo_dot (by rw [skipSpaces_bare hk, simpleKey_bare hk (by decide)]) (keyPathUpTo_quoted l hcs hc)
  startsKey := by
    obtain ⟨c, cs, hcs, hc⟩ := hk.head
    exact ⟨c, cs ++ '.' :: quoted l, by rw [hcs, List.cons_append], .inr hc⟩

theorem StartsKey.ne_nil {w : List Char} (h : StartsKey w) : w ≠ [] := by
  obtain ⟨c, more, rfl, _⟩ := h
  exact List.cons_ne_nil c more

theorem StartsKey.ne_cons {w : List Char} (h : StartsKey w) {d : Char} (hd : d ≠ '"' ∧ isBareKey d = false)
    (rest : List Char) : w ≠ d :: rest := by
  obtain ⟨c, cs, rfl, hc⟩ := h
  intro hw
  obtain ⟨rfl, _⟩ := List.cons.inj hw
  exact hc.elim hd.1 fun hbare => ne_of_isBareKey hbare hd.2 rfl

theorem StartsKey.append {w : List Char} (h : StartsKey w) (cs : List Char) : StartsKey (w ++ cs) := by
  obtain ⟨c, more, rfl, hc⟩ := h
  exact ⟨c, more ++ cs, rfl, hc⟩

theorem StartsKey.skipSpaces {w : List Char} (h : StartsKey w) : skipSpaces w = w := by
  obtain ⟨c, more, rfl, rfl | hc⟩ := h
  · rfl
  · exact skipSpaces_cons (not_isSpace_of_isBareKey hc) more

/-! ## Pairs -/

/-- Characters that are read as the pair, whatever follows that is no quote. -/
structure IsPair (nesting : Nat) (w : List Char) (p : KeyPath × Value) : Prop where
  reads : ∀ rest : List Char, rest.head? ≠ some '"' → pair (valueUpTo nesting) (w ++ rest) = some (p, rest)
  startsKey : StartsKey w

def entry (key w : List Char) : List Char := key ++ ' ' :: '=' :: ' ' :: w

section Pairs

variable {nesting : Nat} {w : List Char} {p : KeyPath × Value}

theorem isPair_entry {key : List Char} {path : KeyPath} {v : Value} (hk : IsKey key path) (hv : IsValue nesting w v) :
    IsPair nesting (entry key w) (path, v) where
  reads rest h := by
    have hkey := hk.reads (' ' :: '=' :: ' ' :: (w ++ rest)) '=' (' ' :: (w ++ rest)) rfl (.inl rfl)
    rw [pair, entry, List.append_assoc, List.cons_append, List.cons_append, List.cons_append, hkey]
    show (valueUpTo nesting (skipSpaces (w ++ rest))).bind _ = _
    rw [hv.skipSpaces, hv.reads rest h]
    rfl
  startsKey := hk.startsKey.append _

/-! ## Inline tables -/

/-- An inline table of entries. -/
def braces (ws : List (List Char)) : List Char := '\x7b' :: ' ' :: commaSeparated ws ++ [' ', '\x7d']

theorem pairs_space (value : Reader Value) (n : Nat) (cs : List Char) :
    pairs value n (' ' :: cs) = pairs value n cs := by
  cases n <;> rfl

theorem pairs_brace (h : IsPair nesting w p) (n : Nat) (rest : List Char) :
    pairs (valueUpTo nesting) (n + 1) (w ++ ' ' :: '\x7d' :: rest) = some ([p], rest) := by
  rw [pairs, h.reads _ (by simp)]
  rfl

theorem pairs_comma (h : IsPair nesting w p) (n : Nat) (more : List Char) :
    pairs (valueUpTo nesting) (n + 1) (w ++ ',' :: more) =
      (pairs (valueUpTo nesting) n more).map fun x => (p :: x.1, x.2) := by
  rw [pairs, h.reads _ (by simp)]
  show (pairs (valueUpTo nesting) n more).bind _ = _
  cases pairs (valueUpTo nesting) n more <;> rfl

theorem pairs_commaSeparated {ws : List (List Char)} {ps : List (KeyPath × Value)}
    (h : List.Forall₂ (IsPair nesting) ws ps) (hws : ws ≠ []) {n : Nat} (hn : ws.length ≤ n) (rest : List Char) :
    pairs (valueUpTo nesting) n (commaSeparated ws ++ ' ' :: '\x7d' :: rest) = some (ps, rest) := by
  induction h generalizing n with
  | nil => contradiction
  | @cons w p ws ps hw hmore ih =>
    obtain ⟨n, rfl⟩ := Nat.exists_eq_succ_of_ne_zero (Nat.ne_of_gt (Nat.lt_of_lt_of_le (Nat.succ_pos _) hn))
    cases hmore with
    | nil => rw [commaSeparated, List.intercalate_singleton, pairs_brace hw]
    | cons _ _ =>
      have hread := ih (by simp) (Nat.le_of_succ_le_succ hn)
      simp only [commaSeparated, List.intercalate_cons_cons, List.append_assoc, List.cons_append,
        List.nil_append] at hread ⊢
      rw [pairs_comma hw, pairs_space, hread]
      rfl

theorem StartsKey.commaSeparated {ws : List (List Char)} (h : ∀ w ∈ ws, StartsKey w) (hws : ws ≠ []) :
    StartsKey (commaSeparated ws) := by
  cases ws with
  | nil => contradiction
  | cons w ws =>
    have hw := h w List.mem_cons_self
    cases ws with
    | nil => rwa [Toml.commaSeparated, List.intercalate_singleton]
    | cons x ws =>
      rw [Toml.commaSeparated, List.intercalate_cons_cons, List.append_assoc]
      exact hw.append _

theorem braces_append (ws : List (List Char)) (rest : List Char) :
    braces ws ++ rest = '\x7b' :: ' ' :: (commaSeparated ws ++ ' ' :: '\x7d' :: rest) := by simp [braces]

theorem inlineTable_of_startsKey {cs : List Char} (h : StartsKey cs) (value : Reader Value) :
    inlineTable value (' ' :: cs) = (pairs value cs.length cs).bind fun x =>
      (Entries.insertAll [] x.1).map fun t => (.table (entriesToValues t), x.2) := by
  have hskip : skipSpaces (' ' :: cs) = cs := h.skipSpaces
  rw [inlineTable, hskip]
  split
  · exact absurd rfl (h.ne_cons (by decide) _)
  · refine congrArg _ (funext fun x => ?_)
    dsimp only
    cases Entries.insertAll [] x.1 <;> rfl

theorem startsKey_of_forall₂ {ws : List (List Char)} {ps : List (KeyPath × Value)}
    (h : List.Forall₂ (IsPair nesting) ws ps) : ∀ w ∈ ws, StartsKey w := by
  induction h with
  | nil => simp
  | cons hw _ ih => exact List.forall_mem_cons.mpr ⟨hw.startsKey, ih⟩

theorem isValue_braces {ws : List (List Char)} {ps : List (KeyPath × Value)}
    (h : List.Forall₂ (IsPair nesting) ws ps) {t : Entries} (ht : Entries.insertAll [] ps = some t) :
    IsValue (nesting + 1) (braces ws) (.table (entriesToValues t)) where
  reads rest _ := by
    rw [braces_append, valueUpTo]
    by_cases hws : ws = []
    · subst hws
      cases h
      cases ht
      rfl
    · have hkeys := startsKey_of_forall₂ h
      have hn : ws.length ≤ (commaSeparated ws ++ ' ' :: '\x7d' :: rest).length := by
        rw [List.length_append]
        exact Nat.le_add_right_of_le (length_le_commaSeparated fun w hw => (hkeys w hw).ne_nil)
      rw [inlineTable_of_startsKey ((StartsKey.commaSeparated hkeys hws).append _), pairs_commaSeparated h hws hn,
        Option.bind_some, ht]
      rfl
  skipSpaces rest := rfl

end Pairs

/-! ## Lines -/

/-- Characters that are read as the item up to the end of the line. -/
def IsLine (w : List Char) (x : Item) : Prop :=
  ∀ (n : Nat) (rest : List Char), itemsUpTo (n + 1) (w ++ '\n' :: rest) = (itemsUpTo n rest).map (x :: ·)

theorem isLine_of_item {c : Char} {cs : List Char} {x : Item} (hgap : ∀ rest, skipGaps false (c :: rest) = c :: rest)
    (hitem : ∀ rest, item (c :: (cs ++ '\n' :: rest)) = some (x, '\n' :: rest)) : IsLine (c :: cs) x := by
  intro n rest
  rw [List.cons_append, itemsUpTo, hgap]
  show (item (c :: (cs ++ '\n' :: rest))).bind _ = _
  rw [hitem]
  show ((lineEnd? ('\n' :: rest)).bind fun cs => (itemsUpTo n cs).bind fun xs => some (x :: xs)) = _
  rw [show lineEnd? ('\n' :: rest) = some rest from rfl, Option.bind_some]
  cases itemsUpTo n rest <;> rfl

theorem skipGaps_of_isBareKey {c : Char} (h : isBareKey c = true) (rest : List Char) :
    skipGaps false (c :: rest) = c :: rest := by
  have hhash : c ≠ '#' := ne_of_isBareKey h (by decide)
  rw [skipGaps]
  · simp [not_isSpace_of_isBareKey h, hhash]
  · exact ne_of_isBareKey h (by decide)
  · exact fun _ hc => absurd hc (ne_of_isBareKey h (by decide))

theorem StartsKey.item {w : List Char} (h : StartsKey w) :
    item w = (pair value w).map fun x => (.pair x.1.1 x.1.2, x.2) := by
  rw [Toml.item]
  exact h.ne_cons (by decide)

theorem isLine_pair {w : List Char} {p : KeyPath × Value} (h : IsPair maxNesting w p) : IsLine w (.pair p.1 p.2) := by
  have hitem (rest : List Char) : item (w ++ '\n' :: rest) = some (.pair p.1 p.2, '\n' :: rest) := by
    rw [(h.startsKey.append _).item, value, h.reads _ (by simp)]
    rfl
  obtain ⟨c, cs, rfl, rfl | hc⟩ := h.startsKey
  · exact isLine_of_item (fun _ => rfl) hitem
  · exact isLine_of_item (skipGaps_of_isBareKey hc) hitem

def headerLine (k : String) : List Char := '[' :: (k.toList ++ [']'])

theorem isLine_header {k : String} (hk : IsBare k) : IsLine (headerLine k) (.table ⟨[], k⟩) := by
  refine isLine_of_item (fun _ => rfl) fun rest => ?_
  have hkey : keyPath (k.toList ++ ']' :: '\n' :: rest) = some (⟨[], k⟩, ']' :: '\n' :: rest) :=
    (isKey_bare hk).reads _ _ _ rfl (.inr rfl)
  rw [List.append_assoc, List.singleton_append]
  show header (k.toList ++ ']' :: '\n' :: rest) = _
  rw [header, hkey]
  · rfl
  · exact ((isKey_bare hk).startsKey.append _).ne_cons (by decide)

/-- Lines, each with its end. -/
def unlines (ws : List (List Char)) : List Char := ws.flatMap (· ++ ['\n'])

theorem unlines_cons (w : List Char) (ws : List (List Char)) : unlines (w :: ws) = w ++ '\n' :: unlines ws := by
  simp [unlines]

theorem itemsUpTo_unlines {ws : List (List Char)} {xs : List Item} (h : List.Forall₂ IsLine ws xs) {n : Nat}
    (hn : ws.length < n) : itemsUpTo n (unlines ws) = some xs := by
  induction h generalizing n with
  | nil =>
    obtain ⟨n, rfl⟩ := Nat.exists_eq_succ_of_ne_zero (Nat.ne_of_gt hn)
    rfl
  | cons hline _ ih =>
    obtain ⟨n, rfl⟩ := Nat.exists_eq_succ_of_ne_zero (Nat.ne_of_gt (Nat.zero_lt_of_lt hn))
    rw [unlines_cons, hline, ih (Nat.lt_of_succ_lt_succ hn)]
    rfl

theorem not_isLine_byteOrderMark (cs : List Char) (x : Item) : ¬ IsLine ('\uFEFF' :: cs) x := by
  intro h
  have hnone : itemsUpTo 2 ('\uFEFF' :: cs ++ ['\n']) = none := rfl
  rw [h 1 []] at hnone
  cases hnone

theorem items_unlines {ws : List (List Char)} {xs : List Item} (h : List.Forall₂ IsLine ws xs) :
    items (unlines ws) = some xs := by
  rw [items]
  · exact itemsUpTo_unlines h (Nat.lt_succ_of_le (Text.length_le_flatMap (by simp) ws))
  · intro rest hrest
    cases h with
    | nil => cases hrest
    | @cons w x ws xs hline _ =>
      rw [unlines_cons] at hrest
      cases w with
      | nil => exact absurd (List.cons.inj hrest).1 (by decide)
      | cons c cs =>
        obtain ⟨rfl, _⟩ := List.cons.inj hrest
        exact not_isLine_byteOrderMark cs x hline

/-! ## From lines to one table -/

def pairItem (p : KeyPath × Value) : Item := .pair p.1 p.2

theorem splitPairs_append (ps : List (KeyPath × Value)) (xs : List Item) :
    splitPairs (ps.map pairItem ++ xs) = (ps ++ (splitPairs xs).1, (splitPairs xs).2) := by
  induction ps with
  | nil => rfl
  | cons p ps ih =>
    rw [List.map_cons, List.cons_append, pairItem, splitPairs, ih]
    rfl

theorem addSections_append (es : Entries) (ps : List (KeyPath × Value)) (xs : List Item) :
    addSections es (ps.map pairItem ++ xs) = addSections es xs := by
  induction ps with
  | nil => rfl
  | cons p ps ih => exact ih

theorem ofItems_pairs (ps : List (KeyPath × Value)) : ofItems (ps.map pairItem) = Entries.insertAll [] ps := by
  have hsplit := splitPairs_append ps []
  have hadd (es : Entries) := addSections_append es ps []
  simp only [List.append_nil] at hsplit hadd
  simp only [ofItems, hsplit, hadd, splitPairs, addSections, List.append_nil]
  exact Option.bind_fun_some _

theorem ofItems_header (ps qs : List (KeyPath × Value)) (path : KeyPath) :
    ofItems (ps.map pairItem ++ .table path :: qs.map pairItem) =
      (Entries.insertAll [] ps).bind fun es => es.declare path qs := by
  have hsplit := splitPairs_append qs []
  have hadd (es : Entries) := addSections_append es qs []
  simp only [List.append_nil] at hsplit hadd
  simp only [ofItems, splitPairs_append, addSections_append, splitPairs, addSections, hsplit, hadd, List.append_nil]
  exact congrArg _ (funext fun es => Option.bind_fun_some _)

namespace Entries

/-- Keys with values as they come to stand in a table. -/
def leaves (es : List (String × Value)) : Entries := es.map fun e => (e.1, .leaf e.2)

def plain (es : List (String × Value)) : List (KeyPath × Value) := es.map fun e => (⟨[], e.1⟩, e.2)

def under (key : String) (es : List (String × Value)) : List (KeyPath × Value) := es.map fun e => (⟨[key], e.1⟩, e.2)

theorem entriesToValues_leaves (es : List (String × Value)) : entriesToValues (leaves es) = es := by
  rw [entriesToValues_eq_map, leaves, List.map_map]
  refine (List.map_congr_left fun e _ => ?_).trans (List.map_id es)
  rw [Function.comp, Node.toValue]
  rfl

variable {start inner : Entries} {key k : String} {v : Value} {es : List (String × Value)}

theorem insertNew_of_notMem {n : Node} (h : k ∉ start.map Prod.fst) :
    insertNew k n start = some (start ++ [(k, n)]) := by
  rw [insertNew, lookup_eq_none_iff_notMem.mpr h]
  rfl

theorem insert_plain (h : k ∉ start.map Prod.fst) : start.insert (⟨[], k⟩, v) = some (start ++ [(k, .leaf v)]) :=
  insertNew_of_notMem h

theorem insert_under_new (h : key ∉ start.map Prod.fst) :
    start.insert (⟨[key], k⟩, v) = some (start ++ [(key, .table .dotted [(k, .leaf v)])]) := by
  rw [insert, descend, lookup_eq_none_iff_notMem.mpr h]
  rfl

theorem lookup_append_singleton {n : Node} (h : key ∉ start.map Prod.fst) :
    (start ++ [(key, n)]).lookup key = some n := by
  rw [List.lookup_append, lookup_eq_none_iff_notMem.mpr h]
  simp

theorem replace_append_singleton {n n' : Node} (h : key ∉ start.map Prod.fst) :
    replace key n' (start ++ [(key, n)]) = start ++ [(key, n')] := by
  have hstart : replace key n' start = start := by
    refine (List.map_congr_left fun e he => if_neg fun hkey => h ?_).trans (List.map_id start)
    exact hkey ▸ List.mem_map_of_mem he
  rw [replace, List.map_append, ← replace, hstart]
  simp

theorem insert_under_old (h : key ∉ start.map Prod.fst) (hk : k ∉ inner.map Prod.fst) :
    insert (start ++ [(key, .table .dotted inner)]) (⟨[key], k⟩, v) =
      some (start ++ [(key, .table .dotted (inner ++ [(k, .leaf v)]))]) := by
  rw [insert, descend, lookup_append_singleton h]
  show (insertNew k (.leaf v) inner).map _ = _
  rw [insertNew_of_notMem hk, Option.map_some, replace_append_singleton h]

theorem insertAll_append (start : Entries) (ps qs : List (KeyPath × Value)) :
    insertAll start (ps ++ qs) = (insertAll start ps).bind (insertAll · qs) :=
  List.foldlM_append

theorem insertAll_plain (h : (start.map Prod.fst ++ es.map Prod.fst).Nodup) :
    insertAll start (plain es) = some (start ++ leaves es) := by
  induction es generalizing start with
  | nil => simp [insertAll, plain, leaves]
  | cons e es ih =>
    have he : e.1 ∉ start.map Prod.fst := by
      intro hmem
      exact (List.nodup_append.mp h).2.2 _ hmem e.1 (by simp) rfl
    have hrest := @ih (start ++ [(e.1, .leaf e.2)]) (by simpa using h)
    show (start.insert (⟨[], e.1⟩, e.2)).bind (insertAll · (plain es)) = _
    rw [insert_plain he, Option.bind_some, hrest]
    simp [leaves]

theorem insertAll_nil_plain (h : (es.map Prod.fst).Nodup) : insertAll [] (plain es) = some (leaves es) :=
  insertAll_plain h

theorem insertAll_under_old (h : key ∉ start.map Prod.fst) (hes : (inner.map Prod.fst ++ es.map Prod.fst).Nodup) :
    insertAll (start ++ [(key, .table .dotted inner)]) (under key es) =
      some (start ++ [(key, .table .dotted (inner ++ leaves es))]) := by
  induction es generalizing inner with
  | nil => simp [insertAll, under, leaves]
  | cons e es ih =>
    have he : e.1 ∉ inner.map Prod.fst := by
      intro hmem
      exact (List.nodup_append.mp hes).2.2 _ hmem e.1 (by simp) rfl
    have hrest := @ih (inner ++ [(e.1, .leaf e.2)]) (by simpa using hes)
    show (insert _ (⟨[key], e.1⟩, e.2)).bind (insertAll · (under key es)) = _
    rw [insert_under_old h he, Option.bind_some, hrest]
    simp [leaves]

theorem insertAll_under (h : key ∉ start.map Prod.fst) (hne : es ≠ []) (hes : (es.map Prod.fst).Nodup) :
    insertAll start (under key es) = some (start ++ [(key, .table .dotted (leaves es))]) := by
  cases es with
  | nil => contradiction
  | cons e es =>
    show (start.insert (⟨[key], e.1⟩, e.2)).bind (insertAll · (under key es)) = _
    rw [insert_under_new h, Option.bind_some, insertAll_under_old h (by simpa using hes)]
    simp [leaves]

theorem declare_plain (h : key ∉ start.map Prod.fst) (hes : (es.map Prod.fst).Nodup) :
    start.declare ⟨[], key⟩ (plain es) = some (start ++ [(key, .table .declared (leaves es))]) := by
  rw [declare, descend, lookup_eq_none_iff_notMem.mpr h]
  show (insertAll [] (plain es)).map _ = _
  rw [insertAll_nil_plain hes]
  rfl

end Entries

end EclipseProject.Toml
