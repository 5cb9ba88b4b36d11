import EclipseProject.Proofs.CommandLine.Words
import Mathlib.Data.List.TakeWhile

/-!
# How words are spelt

A list of arguments spells words. Reading a list that spells some comes to what they come to.
-/

namespace EclipseProject.CommandLine

/-! ## Spelling -/

/-- The argument is no option. -/
def Plain (argument : String) : Prop := argument = "-" ∨ argument.toList.head? ≠ some '-'

/-- The arguments spell the words. Letters can be joined behind one hyphen, the last of them with the path of a file,
and what stands behind a request is not read. -/
inductive Spells : List String → List Word → Prop
  | nil : Spells [] []
  | names (ns : List String) : Spells ("--" :: ns) (ns.map .name)
  | name {n more ws} : Plain n → Spells more ws → Spells (n :: more) (.name n :: ws)
  | long {s more ws} : s.requests = false → Spells more ws → Spells (s.long :: more) (.switch s :: ws)
  | longRequest {s} (more : List String) : s.requests = true → Spells (s.long :: more) [.switch s]
  | letter {s c more ws} : s.letter? = some c → s.requests = false → Spells more ws →
      Spells (.ofList ['-', c] :: more) (.switch s :: ws)
  | letters {s c x more ws} {cs : List Char} : s.letter? = some c → s.requests = false → x ≠ '-' →
      Spells (.ofList ('-' :: x :: cs) :: more) ws → Spells (.ofList ('-' :: c :: x :: cs) :: more) (.switch s :: ws)
  | letterRequest {s c} (cs : List Char) (more : List String) : s.letter? = some c → s.requests = true →
      Spells (.ofList ('-' :: c :: cs) :: more) [.switch s]
  | behind {o f more ws} : o ∈ ["--config", "-c"] → Plain f → Spells more ws → Spells (o :: f :: more) (.file f :: ws)
  | attached {o f more ws} : o ∈ ["--config=", "-c="] → Spells more ws → Spells ((o ++ f) :: more) (.file f :: ws)
  | adjoined {f more ws} : f ≠ "" → f.toList.head? ≠ some '=' → Spells more ws →
      Spells (("-c" ++ f) :: more) (.file f :: ws)

variable {ws ws' : List Word} {w : Word} {a : Arguments} {f n : String} {s : Switch} {x : Except Stop Arguments}

/-! ## Reading one argument -/

theorem ne_hyphen_of_letter {c : Char} (hc : s.letter? = some c) : c ≠ '-' := by
  cases s <;> cases hc <;> decide

section
variable (a : Arguments) (more : List String)

theorem read_plain (h : Plain n) : a.read (n :: more) = a.readPlain n >>= (·.read more) := by
  rw [Arguments.read]
  obtain rfl | h := h
  · rfl
  · split
    · next hn => simp [hn] at h
    · next hn => simp [hn] at h
    · next hn => simp [hn] at h
    · rfl

theorem read_long {c : Char} {cs : List Char} :
    a.read (.ofList ('-' :: '-' :: c :: cs) :: more) = a.readLong (c :: cs) >>= (·.read more) := by
  rw [Arguments.read, String.toList_ofList]
  rfl

theorem read_short {c : Char} {cs : List Char} (hc : c ≠ '-') :
    a.read (.ofList ('-' :: c :: cs) :: more) = a.readShort (c :: cs) >>= (·.read more) := by
  rw [Arguments.read, String.toList_ofList]
  split
  · next h => simp_all
  · next h => simp_all
  · next h =>
    cases h
    rfl
  · next h => exact absurd rfl (h _ _)

theorem readLong_bare {cs : List Char} (h : '=' ∉ cs) : a.readLong cs =
    match Switch.ofLong? (.ofList cs) with
    | some s => a.switch s
    | none =>
      if String.ofList cs = "config" then a.awaitConfiguration
      else Arguments.fail (.unexpectedArgument ("--" ++ .ofList cs)) := by
  have hall : ∀ c ∈ cs, decide (c ≠ '=') = true := by grind
  unfold Arguments.readLong
  rw [List.takeWhile_eq_self_iff.mpr hall, List.dropWhile_eq_nil_iff.mpr hall]
  dsimp only
  cases Switch.ofLong? (.ofList cs) <;> rfl

theorem readLong_valued (cs value : List Char) (h : '=' ∉ cs) : a.readLong (cs ++ '=' :: value) =
    match Switch.ofLong? (.ofList cs) with
    | some _ => Arguments.fail (.unexpectedValue (.ofList value) ("--" ++ .ofList cs))
    | none =>
      if String.ofList cs = "config" then a.attachConfiguration (.ofList value)
      else Arguments.fail (.unexpectedArgument ("--" ++ .ofList cs)) := by
  have hall : ∀ c ∈ cs, decide (c ≠ '=') = true := by grind
  unfold Arguments.readLong
  rw [List.takeWhile_append_of_pos hall, List.dropWhile_append_of_pos hall, List.takeWhile_cons_of_neg (by simp),
    List.dropWhile_cons_of_neg (by simp), List.append_nil]
  dsimp only
  cases Switch.ofLong? (.ofList cs) <;> rfl

theorem read_switch (s : Switch) : a.read (s.long :: more) = a.switch s >>= (·.read more) := by
  cases s <;> rfl

theorem readShort_letter {c : Char} (hc : s.letter? = some c) (cs : List Char) :
    a.readShort (c :: cs) = a.switch s >>= (·.readShort cs) := by
  cases s <;> cases hc <;> rfl

theorem read_letter {c : Char} (hc : s.letter? = some c) :
    a.read (.ofList ['-', c] :: more) = a.switch s >>= (·.read more) := by
  rw [read_short _ _ (ne_hyphen_of_letter hc), readShort_letter _ hc, bind_assoc]
  rfl

theorem read_letters {c y : Char} (hc : s.letter? = some c) (hy : y ≠ '-') (cs : List Char) :
    a.read (.ofList ('-' :: c :: y :: cs) :: more) = a.switch s >>= (·.read (.ofList ('-' :: y :: cs) :: more)) := by
  rw [read_short _ _ (ne_hyphen_of_letter hc), readShort_letter _ hc, bind_assoc]
  exact bind_congr fun b => (read_short b more hy).symm

theorem switch_request (hs : s.requests = true) (k : Arguments → Except Stop Arguments) :
    a.switch s >>= k = a.switch s := by
  unfold Arguments.switch
  cases a.settle with
  | error stop => rfl
  | ok b => cases s <;> first | rfl | cases hs

theorem read_behind {o : String} (ho : o ∈ ["--config", "-c"]) (hf : Plain f) :
    a.read (o :: f :: more) = a.settle >>= fun b => { b with pending := .check f }.read more := by
  have hawait : a.read (o :: f :: more) = a.awaitConfiguration >>= (·.read (f :: more)) := by
    simp only [List.mem_cons, List.not_mem_nil, or_false] at ho
    obtain rfl | rfl := ho <;> rfl
  rw [hawait, Arguments.awaitConfiguration, bind_assoc]
  refine bind_congr fun b => ?_
  rw [pure_bind, read_plain _ _ hf]
  rfl

theorem read_attached {o : String} (ho : o ∈ ["--config=", "-c="]) :
    a.read ((o ++ f) :: more) = a.attachConfiguration f >>= (·.read more) := by
  simp only [List.mem_cons, List.not_mem_nil, or_false] at ho
  obtain rfl | rfl := ho
  · have hspelt : "--config=" ++ f = .ofList ('-' :: '-' :: 'c' :: ("onfig=".toList ++ f.toList)) :=
      String.ext (by simp)
    have hread : a.readLong ('c' :: ("onfig=".toList ++ f.toList)) = a.attachConfiguration f := by
      simpa [Switch.ofLong?] using readLong_valued a ("config".toList) f.toList (by decide)
    rw [hspelt, read_long, hread]
  · have hspelt : "-c=" ++ f = .ofList ('-' :: 'c' :: '=' :: f.toList) := String.ext (by simp)
    rw [hspelt, read_short _ _ (by decide), Arguments.readShort, String.ofList_toList]

theorem readShort_adjoined {c : Char} {cs : List Char} (hc : c ≠ '=') :
    a.readShort ('c' :: c :: cs) = a.attachConfiguration (.ofList (c :: cs)) := by
  rw [Arguments.readShort]
  · exact List.cons_ne_nil c cs
  · rintro _ h
    cases h
    exact hc rfl

theorem read_adjoined (hf : f ≠ "") (heq : f.toList.head? ≠ some '=') :
    a.read (("-c" ++ f) :: more) = a.attachConfiguration f >>= (·.read more) := by
  have hspelt : "-c" ++ f = .ofList ('-' :: 'c' :: f.toList) := String.ext (by simp)
  rw [hspelt, read_short _ _ (by decide)]
  cases hcs : f.toList with
  | nil => exact absurd (String.toList_eq_nil_iff.mp hcs) hf
  | cons c cs =>
    rw [hcs] at heq
    rw [readShort_adjoined _ (by simpa using heq), ← hcs, String.ofList_toList]

end

/-! ## Reading a list of arguments -/

/-- Reading the arguments after any words comes to these words and the ones that are spelt. What is pending is checked
before the next word is looked at, so the words so far come to what is settled. -/
def ReadsAs (arguments : List String) (ws' : List Word) : Prop :=
  ∀ ws (a : Arguments), a.pending ≠ .value → Comes ws a.settle → (∀ w ∈ ws, w.requests = false) →
    Comes (ws ++ ws') (a.read arguments)

theorem ReadsAs.after {more : List String} (hmore : ReadsAs more ws') (h : Comes (ws ++ [w]) x)
    (hreads : ∀ w ∈ ws, w.requests = false) (hw : w.requests = false) :
    Comes (ws ++ w :: ws') (x >>= (·.read more)) := by
  have hreads' := reads_append_one hreads hw
  rw [List.append_cons]
  refine h.bind hreads' fun b hb => ?_
  subst hb
  refine hmore _ b ?_ (h.settle ▸ h) hreads'
  obtain rfl := h.2.2
  exact Pending.noConfusion

theorem Comes.names (ns : List String) (h : Comes ws a.settle) (hreads : ∀ w ∈ ws, w.requests = false) :
    Comes (ws ++ ns.map .name) (ns.foldlM Arguments.addName a >>= Arguments.settle) := by
  induction ns generalizing ws a with
  | nil => simpa using h
  | cons n ns ih =>
    have hname := h.addName hreads (n := n)
    have hreads' := reads_append_one hreads (w := .name n) rfl
    rw [List.foldlM_cons, bind_assoc, List.map_cons, List.append_cons]
    refine hname.bind hreads' fun b hb => ?_
    rw [hb] at hname
    exact ih (hname.settle ▸ hname) hreads'

theorem Spells.readsAs {arguments : List String} (hs : Spells arguments ws') : ReadsAs arguments ws' := by
  induction hs with
  | nil =>
    intro ws a _ h _
    rwa [List.append_nil]
  | names ns => exact fun ws a _ h hreads => h.names ns hreads
  | name hn _ ih =>
    intro ws a ha h hreads
    rw [read_plain _ _ hn, Arguments.readPlain, if_neg ha]
    exact ih.after (h.addName hreads) hreads rfl
  | long hr _ ih =>
    intro ws a _ h hreads
    rw [read_switch]
    exact ih.after (h.switch hreads) hreads hr
  | longRequest more hr =>
    intro ws a _ h hreads
    rw [read_switch, switch_request _ hr]
    exact h.switch hreads
  | letter hc hr _ ih =>
    intro ws a _ h hreads
    rw [read_letter _ _ hc]
    exact ih.after (h.switch hreads) hreads hr
  | letters hc hr hx _ ih =>
    intro ws a _ h hreads
    rw [read_letters _ _ hc hx]
    exact ih.after (h.switch hreads) hreads hr
  | letterRequest cs more hc hr =>
    intro ws a _ h hreads
    rw [read_short _ _ (ne_hyphen_of_letter hc), readShort_letter _ hc, switch_request _ hr, switch_request _ hr]
    exact h.switch hreads
  | behind ho hf _ ih =>
    intro ws a _ h hreads
    rw [read_behind _ _ ho hf]
    refine h.bind hreads fun b hb => ?_
    rw [hb] at h
    obtain rfl := h.2.2
    rw [List.append_cons]
    exact ih _ _ Pending.noConfusion (Comes.setConfiguration h) (reads_append_one hreads rfl)
  | attached ho _ ih =>
    intro ws a _ h hreads
    rw [read_attached _ _ ho]
    exact ih.after (h.attachConfiguration hreads) hreads rfl
  | adjoined hne heq _ ih =>
    intro ws a _ h hreads
    rw [read_adjoined _ _ hne heq]
    exact ih.after (h.attachConfiguration hreads) hreads rfl

theorem Spells.comes {arguments : List String} (hs : Spells arguments ws) : Comes ws (Arguments.parse arguments) :=
  hs.readsAs [] .initial Pending.noConfusion comes_initial (by simp)

end EclipseProject.CommandLine
