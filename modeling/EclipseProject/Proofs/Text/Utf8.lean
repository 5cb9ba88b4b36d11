import EclipseProject.Text.Utf8

/-!
# UTF-8 is read back

`Reads` says which bytes the machine takes for one character. From the start these are exactly the bytes that
encode the character, so a strict reading accepts the encoded texts and nothing else, and a lenient reading of an
encoded text puts nothing in its place.
-/

namespace EclipseProject.Utf8

/-- The machine in this state takes the bytes for the character, all of them. -/
inductive State.Reads : State → List UInt8 → Char → Prop
  | char {q : State} {b : UInt8} {c : Char} (h : q.step b.toNat = .char c) : Reads q [b] c
  | goOn {q q' : State} {b : UInt8} {bs : List UInt8} {c : Char} (h : q.step b.toNat = .goOn q')
      (hq : Reads q' bs c) : Reads q (b :: bs) c

variable {q : State} {b : UInt8} {bs rest bytes : List UInt8} {c : Char} {cs : List Char} {low high more v n : Nat}

/-! ## Readings of one character and of a text -/

theorem decodeStrict_of_reads (h : q.Reads bs c) :
    decodeStrict q (bs ++ rest) = (decodeStrict .start rest).map (c :: ·) := by
  induction h with
  | char h => simp only [List.singleton_append, decodeStrict, h]
  | goOn h _ ih => simp only [List.cons_append, decodeStrict, h, ih]

theorem decodeLenient_of_reads (h : q.Reads bs c) : decodeLenient q (bs ++ rest) = c :: decodeLenient .start rest := by
  induction h with
  | @char q b c h => cases q <;> simp only [List.singleton_append, decodeLenient, h]
  | @goOn q q' b bs c h _ ih => cases q <;> simp only [List.cons_append, decodeLenient, h, ih]

theorem step_ne_goOn_start : q.step n ≠ .goOn .start := by
  intro h
  cases q with
  | start =>
    simp only [State.step, first] at h
    repeat' split at h
    all_goals cases h
  | inside low high more v =>
    simp only [State.step] at h
    repeat' split at h
    all_goals cases h

/-- A strict reading that is not over takes a character first. -/
theorem reads_of_decodeStrict (h : decodeStrict q bytes = some cs) : (q = .start ∧ bytes = [] ∧ cs = []) ∨
    ∃ bs rest c cs', q.Reads bs c ∧ bytes = bs ++ rest ∧ cs = c :: cs' ∧ decodeStrict .start rest = some cs' := by
  induction bytes generalizing q with
  | nil =>
    cases q with
    | start => exact Or.inl ⟨rfl, rfl, (Option.some.inj h).symm⟩
    | inside low high more v => cases h
  | cons b rest ih =>
    right
    rw [decodeStrict] at h
    split at h
    · next c hc =>
      obtain ⟨cs', hrest, rfl⟩ := Option.map_eq_some_iff.mp h
      exact ⟨[b], rest, c, cs', .char hc, rfl, rfl, hrest⟩
    · next q' hq' =>
      obtain ⟨rfl, _, _⟩ | ⟨bs, rest', c, cs', hr, rfl, hcs, hrest⟩ := ih h
      · exact absurd hq' step_ne_goOn_start
      · exact ⟨b :: bs, rest', c, cs', .goOn hq' hr, rfl, hcs, hrest⟩
    · cases h

/-! ## Inside a character -/

theorem reads_inside_last (h : (State.inside low high 0 v).Reads bs c) :
    ∃ b : UInt8, bs = [b] ∧ low ≤ b.toNat ∧ b.toNat ≤ high ∧ c = .ofNat (v * 0x40 + (b.toNat - 0x80)) := by
  cases h with
  | @char _ b _ h =>
    simp only [State.step] at h
    split at h
    · next hb => exact ⟨b, rfl, hb.1, hb.2, (Step.char.inj h).symm⟩
    · cases h
  | goOn h _ =>
    simp only [State.step] at h
    split at h <;> cases h

theorem reads_inside_more (h : (State.inside low high (more + 1) v).Reads bs c) :
    ∃ (b : UInt8) (bs' : List UInt8), bs = b :: bs' ∧ low ≤ b.toNat ∧ b.toNat ≤ high ∧
      (State.inside 0x80 0xBF more (v * 0x40 + (b.toNat - 0x80))).Reads bs' c := by
  cases h with
  | char h =>
    simp only [State.step] at h
    split at h <;> cases h
  | @goOn _ _ b bs' _ h hq =>
    simp only [State.step] at h
    split at h
    · next hb =>
      cases h
      exact ⟨b, bs', rfl, hb.1, hb.2, hq⟩
    · cases h

/-! ## From the start -/

theorem toNat_ofNat (h : n.isValidChar) : (Char.ofNat n).toNat = n := by
  rw [Char.ofNat, dif_pos h]
  rfl

theorem byte_of_toNat (h : n = b.toNat) : UInt8.ofNat n = b := by
  rw [h, UInt8.ofNat_toNat]

theorem toNat_byte (h : n < 0x100) : (UInt8.ofNat n).toNat = n := by simpa using h

theorem first_two (h : 0xC2 ≤ n) (h' : n < 0xE0) : first n = .goOn (.inside 0x80 0xBF 0 (n - 0xC0)) := by
  rw [first, if_neg (by omega), if_neg (by omega), if_pos h']

theorem first_three (h : 0xE0 ≤ n) (h' : n < 0xF0) : first n =
    .goOn (.inside (if n = 0xE0 then 0xA0 else 0x80) (if n = 0xED then 0x9F else 0xBF) 1 (n - 0xE0)) := by
  rw [first, if_neg (by omega), if_neg (by omega), if_neg (by omega), if_pos h']

theorem first_four (h : 0xF0 ≤ n) (h' : n < 0xF5) : first n =
    .goOn (.inside (if n = 0xF0 then 0x90 else 0x80) (if n = 0xF4 then 0x8F else 0xBF) 2 (n - 0xF0)) := by
  rw [first, if_neg (by omega), if_neg (by omega), if_neg (by omega), if_neg (by omega), if_pos h']

/-- The last six bits of a number, behind a state that holds the others. -/
theorem reads_last (hl : low ≤ 0x80 + n % 0x40) (hh : 0x80 + n % 0x40 ≤ high) :
    (State.inside low high 0 (n / 0x40)).Reads [.ofNat (0x80 + n % 0x40)] (.ofNat n) := by
  have hn : n / 0x40 * 0x40 + (0x80 + n % 0x40 - 0x80) = n := by omega
  exact .char (by rw [toNat_byte (by omega), State.step, if_pos ⟨hl, hh⟩, hn])

theorem reads_more (hl : low ≤ 0x80 + n % 0x40) (hh : 0x80 + n % 0x40 ≤ high)
    (h : (State.inside 0x80 0xBF more n).Reads bs c) :
    (State.inside low high (more + 1) (n / 0x40)).Reads (.ofNat (0x80 + n % 0x40) :: bs) c := by
  have hn : n / 0x40 * 0x40 + (0x80 + n % 0x40 - 0x80) = n := by omega
  exact .goOn (by rw [toNat_byte (by omega), State.step, if_pos ⟨hl, hh⟩, hn]) h

theorem reads_encodeChar (c : Char) : State.start.Reads (encodeChar c) c := by
  have hv : c.toNat.isValidChar := c.valid
  have hc : Char.ofNat c.toNat = c := Char.ofNat_toNat c
  unfold encodeChar
  generalize c.toNat = n at *
  subst hc
  dsimp only
  split
  · next h => exact .char (by rw [toNat_byte (by omega), State.step, first, if_pos h])
  split
  · have h₂ : (State.inside 0x80 0xBF 0 (n / 0x40)).Reads _ _ := reads_last (by omega) (by omega)
    refine .goOn ?_ h₂
    rw [toNat_byte (by omega), State.step, first_two (by omega) (by omega), Nat.add_sub_cancel_left]
  split
  · -- the range of the second byte keeps out what two bytes could hold, and the surrogates
    have h₃ : (State.inside 0x80 0xBF 0 (n / 0x40)).Reads _ _ := reads_last (by omega) (by omega)
    have h₂ : (State.inside (if 0xE0 + n / 0x1000 = 0xE0 then 0xA0 else 0x80)
        (if 0xE0 + n / 0x1000 = 0xED then 0x9F else 0xBF) 1 (n / 0x40 / 0x40)).Reads _ _ :=
      reads_more (by split <;> omega) (by split <;> omega) h₃
    rw [Nat.div_div_eq_div_mul] at h₂
    refine .goOn ?_ h₂
    rw [toNat_byte (by omega), State.step, first_three (by omega) (by omega), Nat.add_sub_cancel_left]
  · have h₄ : (State.inside 0x80 0xBF 0 (n / 0x40)).Reads _ _ := reads_last (by omega) (by omega)
    have h₃ : (State.inside 0x80 0xBF 1 (n / 0x40 / 0x40)).Reads _ _ := reads_more (by omega) (by omega) h₄
    have h₂ : (State.inside (if 0xF0 + n / 0x40000 = 0xF0 then 0x90 else 0x80)
        (if 0xF0 + n / 0x40000 = 0xF4 then 0x8F else 0xBF) 2 (n / 0x40 / 0x40 / 0x40)).Reads _ _ :=
      reads_more (by split <;> omega) (by split <;> omega) h₃
    rw [Nat.div_div_eq_div_mul n 0x40 0x40, Nat.div_div_eq_div_mul n (0x40 * 0x40) 0x40] at h₂
    refine .goOn ?_ h₂
    rw [toNat_byte (by omega), State.step, first_four (by omega) (by omega), Nat.add_sub_cancel_left]

/-- What the range of a second byte says: it is narrower behind the least and the greatest first byte. -/
theorem second_byte {least greatest narrowLow narrowHigh m : Nat}
    (hl : (if n = least then narrowLow else 0x80) ≤ m) (hh : m ≤ if n = greatest then narrowHigh else 0xBF)
    (hlow : 0x80 ≤ narrowLow) (hhigh : narrowHigh ≤ 0xBF) :
    0x80 ≤ m ∧ m ≤ 0xBF ∧ (n = least → narrowLow ≤ m) ∧ (n = greatest → m ≤ narrowHigh) := by
  split at hl <;> split at hh <;> omega

theorem eq_encodeChar_of_two (hb : 0xC2 ≤ b.toNat) (hb' : b.toNat < 0xE0)
    (h : (State.inside 0x80 0xBF 0 (b.toNat - 0xC0)).Reads bs c) : b :: bs = encodeChar c := by
  obtain ⟨b₁, rfl, hl, hh, hc⟩ := reads_inside_last h
  rw [hc, encodeChar, toNat_ofNat (Or.inl (by omega)), if_neg (by omega), if_pos (by omega),
    byte_of_toNat (b := b) (by omega), byte_of_toNat (b := b₁) (by omega)]

theorem eq_encodeChar_of_three (hb : 0xE0 ≤ b.toNat) (hb' : b.toNat < 0xF0)
    (h : (State.inside (if b.toNat = 0xE0 then 0xA0 else 0x80) (if b.toNat = 0xED then 0x9F else 0xBF) 1
      (b.toNat - 0xE0)).Reads bs c) : b :: bs = encodeChar c := by
  obtain ⟨b₁, bs₁, rfl, hl, hh, h⟩ := reads_inside_more h
  obtain ⟨b₂, rfl, hl', hh', hc⟩ := reads_inside_last h
  obtain ⟨hl, hh, hleast, hgreatest⟩ := second_byte hl hh (by decide) (by decide)
  rw [hc, encodeChar, toNat_ofNat (by unfold Nat.isValidChar; omega), if_neg (by omega), if_neg (by omega),
    if_pos (by omega), byte_of_toNat (b := b) (by omega), byte_of_toNat (b := b₁) (by omega),
    byte_of_toNat (b := b₂) (by omega)]

theorem eq_encodeChar_of_four (hb : 0xF0 ≤ b.toNat) (hb' : b.toNat < 0xF5)
    (h : (State.inside (if b.toNat = 0xF0 then 0x90 else 0x80) (if b.toNat = 0xF4 then 0x8F else 0xBF) 2
      (b.toNat - 0xF0)).Reads bs c) : b :: bs = encodeChar c := by
  obtain ⟨b₁, bs₁, rfl, hl, hh, h⟩ := reads_inside_more h
  obtain ⟨b₂, bs₂, rfl, hl', hh', h⟩ := reads_inside_more h
  obtain ⟨b₃, rfl, hl'', hh'', hc⟩ := reads_inside_last h
  obtain ⟨hl, hh, hleast, hgreatest⟩ := second_byte hl hh (by decide) (by decide)
  rw [hc, encodeChar, toNat_ofNat (by unfold Nat.isValidChar; omega), if_neg (by omega), if_neg (by omega),
    if_neg (by omega), byte_of_toNat (b := b) (by omega), byte_of_toNat (b := b₁) (by omega),
    byte_of_toNat (b := b₂) (by omega), byte_of_toNat (b := b₃) (by omega)]

theorem eq_encodeChar_of_reads (h : State.start.Reads bs c) : bs = encodeChar c := by
  cases h with
  | @char _ b c h =>
    simp only [State.step, first] at h
    split at h
    · next hb =>
      obtain rfl := Step.char.inj h
      rw [encodeChar, toNat_ofNat (Or.inl (by omega)), if_pos hb, UInt8.ofNat_toNat]
    · repeat' split at h
      all_goals cases h
  | @goOn _ q' b bs _ h hq =>
    rw [State.step] at h
    have hb : 0xC2 ≤ b.toNat ∧ b.toNat < 0xF5 := by
      unfold first at h
      repeat' split at h
      all_goals first | cases h; done | omega
    by_cases h₂ : b.toNat < 0xE0
    · rw [first_two hb.1 h₂] at h
      obtain rfl := Step.goOn.inj h
      exact eq_encodeChar_of_two hb.1 h₂ hq
    by_cases h₃ : b.toNat < 0xF0
    · rw [first_three (by omega) h₃] at h
      obtain rfl := Step.goOn.inj h
      exact eq_encodeChar_of_three (by omega) h₃ hq
    · rw [first_four (by omega) hb.2] at h
      obtain rfl := Step.goOn.inj h
      exact eq_encodeChar_of_four (by omega) hb.2 hq

/-! ## Whole texts -/

theorem decodeStrict_encode (cs : List Char) : decodeStrict .start (cs.flatMap encodeChar) = some cs := by
  induction cs with
  | nil => rfl
  | cons c cs ih => rw [List.flatMap_cons, decodeStrict_of_reads (reads_encodeChar c), ih, Option.map_some]

theorem eq_encode_of_decodeStrict (h : decodeStrict .start bytes = some cs) : bytes = cs.flatMap encodeChar := by
  induction cs generalizing bytes with
  | nil =>
    obtain ⟨_, hb, _⟩ | ⟨_, _, _, _, _, _, hcs, _⟩ := reads_of_decodeStrict h
    · exact hb
    · cases hcs
  | cons c cs ih =>
    obtain ⟨_, _, hcs⟩ | ⟨bs, rest, c', cs', hr, hb, hcs, hrest⟩ := reads_of_decodeStrict h
    · cases hcs
    · cases hcs
      rw [hb, eq_encodeChar_of_reads hr, ih hrest, List.flatMap_cons]

/-- A strict reading accepts the encoded texts and nothing else. -/
theorem decode?_eq_some_iff {s : String} : decode? bytes = some s ↔ bytes = encode s := by
  unfold decode? encode
  constructor
  · intro h
    obtain ⟨cs, hcs, rfl⟩ := Option.map_eq_some_iff.mp h
    rw [String.toList_ofList]
    exact eq_encode_of_decodeStrict hcs
  · rintro rfl
    rw [decodeStrict_encode, Option.map_some, String.ofList_toList]

theorem decodeLenient_encode (cs : List Char) : decodeLenient .start (cs.flatMap encodeChar) = cs := by
  induction cs with
  | nil => rfl
  | cons c cs ih => rw [List.flatMap_cons, decodeLenient_of_reads (reads_encodeChar c), ih]

theorem decode_encode (s : String) : decode (encode s) = s := by
  unfold decode encode
  rw [decodeLenient_encode, String.ofList_toList]

theorem encode_injective {s t : String} (h : encode s = encode t) : s = t := by
  rw [← decode_encode s, h, decode_encode]

theorem encode_append (s t : String) : encode (s ++ t) = encode s ++ encode t := by
  simp [encode]

/-! ## Between characters -/

/-- The bytes that the machine waits for are none of ASCII. -/
def State.Proper : State → Prop
  | .start => True
  | .inside low _ _ _ => 0x80 ≤ low

theorem proper_of_first {q' : State} (h : first n = .goOn q') : q'.Proper := by
  unfold first at h
  repeat' split at h
  all_goals cases h
  all_goals simp only [State.Proper]; omega

theorem proper_of_step {q' : State} (h : q.step n = .goOn q') : q'.Proper := by
  cases q with
  | start => exact proper_of_first h
  | inside low high more v =>
    simp only [State.step] at h
    repeat' split at h
    all_goals cases h
    exact Nat.le_refl 0x80

/-- A character of one byte ends whatever is unfinished before it, and what follows it is read from the start. -/
theorem decodeLenient_append_ascii (hq : q.Proper) (hb : b.toNat < 0x80) (bytes rest : List UInt8) :
    decodeLenient q (bytes ++ b :: rest) =
      decodeLenient q bytes ++ Char.ofNat b.toNat :: decodeLenient .start rest := by
  have hfirst : first b.toNat = .char (.ofNat b.toNat) := if_pos hb
  induction bytes generalizing q with
  | nil =>
    cases q with
    | start => simp only [List.nil_append, decodeLenient, State.step, hfirst]
    | inside low high more v =>
      have hlow : ¬ (low ≤ b.toNat ∧ b.toNat ≤ high) := fun h => by
        have hproper : 0x80 ≤ low := hq
        omega
      simp only [List.nil_append, List.cons_append, decodeLenient, State.step, if_neg hlow, hfirst]
  | cons x bytes ih =>
    have hstart : State.Proper .start := trivial
    cases q with
    | start =>
      simp only [List.cons_append, decodeLenient]
      split
      · rw [ih hstart, List.cons_append]
      · next q' h => exact ih (proper_of_step h)
      · rw [ih hstart, List.cons_append]
    | inside low high more v =>
      simp only [List.cons_append, decodeLenient]
      split
      · rw [ih hstart, List.cons_append]
      · next q' h => exact ih (proper_of_step h)
      -- the byte is refused inside a character and read again
      · split
        · rw [ih hstart, List.cons_append, List.cons_append]
        · next q' h => rw [ih (proper_of_first h), List.cons_append]
        · rw [ih hstart, List.cons_append, List.cons_append]

theorem toList_decode_append (hb : b.toNat < 0x80) (bytes rest : List UInt8) :
    (decode (bytes ++ b :: rest)).toList = (decode bytes).toList ++ Char.ofNat b.toNat :: (decode rest).toList := by
  have hstart : State.Proper .start := trivial
  simp only [decode, String.toList_ofList]
  exact decodeLenient_append_ascii hstart hb bytes rest

/-! ## At the ends of a text -/

theorem encodeChar_ne_nil (c : Char) : encodeChar c ≠ [] := by
  intro h
  have hreads := reads_encodeChar c
  rw [h] at hreads
  cases hreads

theorem encodeChar_ascii (hc : c.toNat < 0x80) : encodeChar c = [.ofNat c.toNat] := by
  unfold encodeChar
  exact if_pos hc

theorem le_of_mem_encodeChar (hc : 0x80 ≤ c.toNat) (hb : b ∈ encodeChar c) : 0x80 ≤ b.toNat := by
  have hvalid : c.toNat < 0xD800 ∨ 0xDFFF < c.toNat ∧ c.toNat < 0x110000 := c.valid
  have hbyte : ∀ {n : Nat}, 0x80 ≤ n ∧ n < 0x100 → b = .ofNat n → 0x80 ≤ b.toNat := by
    rintro n hn rfl
    rw [toNat_byte hn.2]
    exact hn.1
  unfold encodeChar at hb
  dsimp only at hb
  rw [if_neg (by omega)] at hb
  split at hb
  · simp only [List.mem_cons, List.not_mem_nil, or_false] at hb
    rcases hb with hb | hb <;> exact hbyte (by omega) hb
  split at hb
  · simp only [List.mem_cons, List.not_mem_nil, or_false] at hb
    rcases hb with hb | hb | hb <;> exact hbyte (by omega) hb
  · simp only [List.mem_cons, List.not_mem_nil, or_false] at hb
    rcases hb with hb | hb | hb | hb <;> exact hbyte (by omega) hb

/-- A byte of ASCII stands for its own character only. -/
theorem ascii_mem_encodeChar {d : Char} (hc : c.toNat < 0x80) : .ofNat c.toNat ∈ encodeChar d ↔ d = c := by
  constructor
  · intro h
    by_cases hd : d.toNat < 0x80
    · rw [encodeChar_ascii hd, List.mem_singleton] at h
      have hvalue : c.toNat = d.toNat := by
        rw [← toNat_byte (n := c.toNat) (by omega), h, toNat_byte (by omega)]
      rw [← Char.ofNat_toNat d, ← hvalue, Char.ofNat_toNat]
    · have hlarge := le_of_mem_encodeChar (by omega) h
      rw [toNat_byte (by omega)] at hlarge
      omega
  · rintro rfl
    simp [encodeChar_ascii hc]

theorem head?_encode (hc : c.toNat < 0x80) (s : String) :
    (encode s).head? = some (.ofNat c.toNat) ↔ s.toList.head? = some c := by
  unfold encode
  cases s.toList with
  | nil => simp
  | cons d ds =>
    obtain ⟨b, bs, hd⟩ := List.exists_cons_of_ne_nil (encodeChar_ne_nil d)
    rw [List.flatMap_cons, hd, List.cons_append, List.head?_cons, List.head?_cons, Option.some_inj, Option.some_inj]
    constructor
    · rintro rfl
      exact (ascii_mem_encodeChar hc).mp (hd ▸ List.mem_cons_self)
    · rintro rfl
      rw [encodeChar_ascii hc] at hd
      exact (List.cons.inj hd).1.symm

theorem getLast?_encode (hc : c.toNat < 0x80) (s : String) :
    (encode s).getLast? = some (.ofNat c.toNat) ↔ s.toList.getLast? = some c := by
  unfold encode
  rcases List.eq_nil_or_concat s.toList with hs | ⟨ds, d, hs⟩
  · simp [hs]
  · have hsome : (encodeChar d).getLast?.isSome = true := by simp [encodeChar_ne_nil]
    rw [hs, List.concat_eq_append, List.flatMap_append, List.flatMap_singleton, List.getLast?_concat,
      Option.some_inj, List.getLast?_append, Option.or_of_isSome hsome]
    constructor
    · intro h
      exact (ascii_mem_encodeChar hc).mp (List.mem_of_getLast? h)
    · rintro rfl
      rw [encodeChar_ascii hc, List.getLast?_singleton]

end EclipseProject.Utf8
