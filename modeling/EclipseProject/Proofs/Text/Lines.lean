import EclipseProject.Proofs.Text.Pieces
import EclipseProject.Text.Blank
import Mathlib.Data.List.DropRight

/-!
# The first line that is not blank

Splitting a text into lines, trimming each and taking the first that is left is the same as cutting once: behind the
blanks at the beginning, line feeds among them, and at the next line feed. What is found is found again in itself.
-/

namespace EclipseProject.Text

variable {cs line v : List Char} {c : Char}

/-! ## Lines -/

theorem lines_cons (h : c ≠ '\n') {more : List (List Char)} (hs : lines cs = line :: more) :
    lines (c :: cs) = (c :: line) :: more := by
  rw [lines, hs]
  exact h

theorem exists_lines (cs : List Char) : ∃ line more, lines cs = line :: more := by
  induction cs with
  | nil => exact ⟨[], [], rfl⟩
  | cons c cs ih =>
    by_cases h : c = '\n'
    · exact ⟨[], lines cs, by rw [h, lines]⟩
    · obtain ⟨line, more, hs⟩ := ih
      exact ⟨c :: line, more, lines_cons h hs⟩

theorem lines_append_line {run : List Char} (h : '\n' ∉ run) {more : List (List Char)} (hs : lines cs = line :: more) :
    lines (run ++ cs) = (run ++ line) :: more := by
  induction run with
  | nil => exact hs
  | cons c run ih =>
    rw [List.mem_cons, not_or] at h
    exact lines_cons (Ne.symm h.1) (ih h.2)

theorem lines_of_notMem (h : '\n' ∉ line) : lines line = [line] := by
  have hline : lines (line ++ []) = [line ++ []] := lines_append_line h rfl
  rwa [List.append_nil] at hline

/-- A text is cut at each of its line feeds. -/
theorem lines_append_newline (cs ds : List Char) : lines (cs ++ '\n' :: ds) = lines cs ++ lines ds := by
  induction cs with
  | nil => rfl
  | cons c cs ih =>
    by_cases h : c = '\n'
    · rw [h, List.cons_append, lines, ih]
      rfl
    · obtain ⟨line, more, hs⟩ := exists_lines cs
      rw [hs, List.cons_append] at ih
      rw [List.cons_append, lines_cons h ih, lines_cons h hs, List.cons_append]

theorem lines_append (h : '\n' ∉ line) (cs : List Char) : lines (line ++ '\n' :: cs) = line :: lines cs := by
  rw [lines_append_newline, lines_of_notMem h, List.singleton_append]

theorem flatten_lines (cs : List Char) : (lines cs).flatten = cs.filter (· ≠ '\n') := by
  induction cs with
  | nil => rfl
  | cons c cs ih =>
    by_cases h : c = '\n'
    · rw [h, lines, List.flatten_cons, List.nil_append, ih]
      rfl
    · obtain ⟨line, more, hs⟩ := exists_lines cs
      rw [hs, List.flatten_cons] at ih
      rw [lines_cons h hs, List.flatten_cons, List.cons_append, ih, List.filter_cons_of_pos (by simpa using h)]

/-- Lines that end in line feeds are split up again, with nothing behind the last line feed. -/
theorem lines_flatMap {ls : List (List Char)} (h : ∀ line ∈ ls, '\n' ∉ line) :
    lines (ls.flatMap (· ++ ['\n'])) = ls ++ [[]] := by
  induction ls with
  | nil => rfl
  | cons line ls ih =>
    rw [List.flatMap_cons, List.append_assoc, List.singleton_append,
      lines_append (h line (List.mem_cons_self ..)), ih fun l hl => h l (List.mem_cons_of_mem _ hl), List.cons_append]

theorem lines_intercalate {ls : List (List Char)} (hne : ls ≠ []) (h : ∀ line ∈ ls, '\n' ∉ line) :
    lines (['\n'].intercalate ls) = ls := by
  induction ls with
  | nil => exact absurd rfl hne
  | cons line ls ih =>
    obtain ⟨hline, hls⟩ := List.forall_mem_cons.mp h
    by_cases hmore : ls = []
    · rw [hmore, List.intercalate_singleton, lines_of_notMem hline]
    · rw [List.intercalate_cons_of_ne_nil hmore, List.append_assoc, List.singleton_append, lines_append hline,
        ih hmore hls]

/-! ## Blanks -/

def AllBlank (cs : List Char) : Prop := ∀ c ∈ cs, isBlank c = true

instance (cs : List Char) : Decidable (AllBlank cs) := decidable_of_iff (cs.all isBlank = true) List.all_eq_true

theorem dropWhile_isBlank_eq_nil_iff : cs.dropWhile isBlank = [] ↔ AllBlank cs := List.dropWhile_eq_nil_iff

theorem not_isBlank_of_dropWhile {rest : List Char} (h : cs.dropWhile isBlank = c :: rest) : isBlank c = false := by
  have hhead := List.head?_dropWhile_not isBlank cs
  rw [h] at hhead
  exact hhead

theorem trim_eq_nil_iff : trim cs = [] ↔ AllBlank cs := by
  have htrim : trim cs = [] ↔ AllBlank (cs.dropWhile isBlank) := List.rdropWhile_eq_nil_iff
  rw [htrim, ← dropWhile_isBlank_eq_nil_iff, ← dropWhile_isBlank_eq_nil_iff, List.dropWhile_idempotent]

/-! ## Ended lines -/

/-- A line is ended by a line feed, or by a carriage return and a line feed. The last one need not be ended. -/
def endedLines : List Char → List (List Char)
  | [] => []
  | '\n' :: rest => [] :: endedLines rest
  | '\r' :: '\n' :: rest => [] :: endedLines rest
  | c :: rest =>
    match endedLines rest with
    | [] => [[c]]
    | line :: more => (c :: line) :: more

/-- The pieces between line feeds are the ended lines, but for carriage returns at their ends and an empty piece in the
end. -/
inductive Pieces : List (List Char) → List (List Char) → Prop
  | nothing : Pieces [[]] []
  | last (line : List Char) : Pieces [line] [line]
  | cons {line more ended} (h : Pieces more ended) : Pieces (line :: more) (line :: ended)
  | returned (line : List Char) {more ended} (h : Pieces more ended) : Pieces ((line ++ ['\r']) :: more) (line :: ended)

theorem pieces_endedLines (cs : List Char) : Pieces (lines cs) (endedLines cs) := by
  induction cs using endedLines.induct with
  | case1 => exact .nothing
  | case2 rest ih => exact ih.cons
  | case3 rest ih => exact .returned [] ih
  | case4 c rest hc hreturn hnil ih =>
    have hended : endedLines (c :: rest) = [[c]] := by rw [endedLines, hnil] <;> assumption
    rw [hended]
    generalize hls : lines rest = ls at ih
    rw [hnil] at ih
    cases ih with
    | nothing =>
      rw [lines_cons hc hls]
      exact .last [c]
  | case5 c rest hc hreturn line more hmore ih =>
    have hended : endedLines (c :: rest) = (c :: line) :: more := by rw [endedLines, hmore] <;> assumption
    rw [hended]
    generalize hls : lines rest = ls at ih
    rw [hmore] at ih
    cases ih with
    | last =>
      rw [lines_cons hc hls]
      exact .last (c :: line)
    | cons h =>
      rw [lines_cons hc hls]
      exact h.cons
    | returned _ h =>
      rw [lines_cons hc hls]
      exact .returned (c :: line) h

theorem trim_concat_of_isBlank (h : isBlank c = true) (cs : List Char) : trim (cs ++ [c]) = trim cs := by
  change ((cs ++ [c]).dropWhile isBlank).rdropWhile isBlank = (cs.dropWhile isBlank).rdropWhile isBlank
  rw [List.dropWhile_append]
  split
  · next hnil =>
    rw [List.isEmpty_iff.mp hnil, List.dropWhile_cons_of_pos h]
    rfl
  · exact List.rdropWhile_concat_pos _ _ _ h

/-- Trimming makes no difference between the pieces and the ended lines. -/
theorem find?_endedLines (cs : List Char) : ((endedLines cs).map trim).find? (!·.isEmpty) = firstNonblank? cs := by
  have hpieces := pieces_endedLines cs
  rw [firstNonblank?]
  generalize lines cs = pieces at hpieces
  generalize endedLines cs = ended at hpieces
  induction hpieces with
  | nothing => rfl
  | last line => rfl
  | cons h ih => rw [List.map_cons, List.map_cons, List.find?_cons, List.find?_cons, ih]
  | returned line h ih =>
    rw [List.map_cons, List.map_cons, List.find?_cons, List.find?_cons, ih, trim_concat_of_isBlank (by decide)]

/-! ## The answer in a text -/

/-- Blanks are dropped in front, line feeds among them, then comes what stands before the next line feed, without the
blanks at its end. -/
def answer (cs : List Char) : List Char := ((cs.dropWhile isBlank).takeWhile (· != '\n')).rdropWhile isBlank

theorem firstNonblank?_of_notMem (h : '\n' ∉ line) :
    firstNonblank? line = if AllBlank line then none else some (trim line) := by
  rw [firstNonblank?, lines_of_notMem h, List.map_singleton, List.find?_singleton]
  by_cases hb : AllBlank line
  · simp [hb, trim_eq_nil_iff.mpr hb]
  · have hne : trim line ≠ [] := fun e => hb (trim_eq_nil_iff.mp e)
    simp [hb, hne]

theorem firstNonblank?_append (h : '\n' ∉ line) (cs : List Char) : firstNonblank? (line ++ '\n' :: cs) =
    if AllBlank line then firstNonblank? cs else some (trim line) := by
  rw [firstNonblank?, lines_append h, List.map_cons, List.find?_cons]
  by_cases hb : AllBlank line
  · simp [hb, trim_eq_nil_iff.mpr hb, firstNonblank?]
  · have hne : (trim line).isEmpty = false := List.isEmpty_eq_false_iff.mpr fun e => hb (trim_eq_nil_iff.mp e)
    simp [hb, hne]

theorem takeWhile_of_notMem (h : '\n' ∉ line) : line.takeWhile (· != '\n') = line :=
  List.takeWhile_eq_self_iff.mpr (bne_of_notMem h)

theorem newline_notMem_dropWhile (h : '\n' ∉ line) : '\n' ∉ line.dropWhile isBlank :=
  fun hmem => h ((List.dropWhile_suffix isBlank).subset hmem)

theorem answer_of_notMem (h : '\n' ∉ line) : answer line = trim line := by
  rw [answer, takeWhile_of_notMem (newline_notMem_dropWhile h)]
  rfl

theorem answer_append_of_allBlank (hb : AllBlank line) (cs : List Char) : answer (line ++ '\n' :: cs) = answer cs := by
  have hblank : isBlank '\n' = true := by decide
  rw [answer, List.dropWhile_append_of_pos hb, List.dropWhile_cons_of_pos hblank]
  rfl

theorem allBlank_append_newline {more : List Char} :
    AllBlank (cs ++ '\n' :: more) ↔ AllBlank cs ∧ AllBlank more := by
  have hblank : isBlank '\n' = true := by decide
  simp only [AllBlank, List.forall_mem_append, List.forall_mem_cons, hblank, true_and]

theorem takeWhile_append_newline (cs more : List Char) :
    (cs ++ '\n' :: more).takeWhile (· != '\n') = cs.takeWhile (· != '\n') := by
  rw [List.takeWhile_append]
  split
  · next h => simpa using ((List.takeWhile_prefix _).eq_of_length h).symm
  · rfl

/-- What comes behind the line of the answer does not count. -/
theorem answer_append_newline (h : ¬ AllBlank cs) (more : List Char) : answer (cs ++ '\n' :: more) = answer cs := by
  have hdrop : (cs ++ '\n' :: more).dropWhile isBlank = cs.dropWhile isBlank ++ '\n' :: more := by
    rw [List.dropWhile_append, if_neg]
    rwa [List.isEmpty_iff, dropWhile_isBlank_eq_nil_iff]
  rw [answer, hdrop, takeWhile_append_newline, answer]

/-- Line by line or with one cut: the same is found. -/
theorem firstNonblank?_eq (cs : List Char) :
    firstNonblank? cs = if AllBlank cs then none else some (answer cs) := by
  induction hn : cs.length using Nat.strong_induction_on generalizing cs with
  | _ n ih =>
    by_cases h : '\n' ∈ cs
    · obtain ⟨line, rest, rfl, hline⟩ := List.eq_append_cons_of_mem h
      rw [firstNonblank?_append hline]
      by_cases hb : AllBlank line
      · rw [if_pos hb, ih rest.length (by simp at hn; omega) rest rfl, answer_append_of_allBlank hb]
        simp only [allBlank_append_newline, hb, true_and]
      · have hno : ¬ AllBlank (line ++ '\n' :: rest) := fun h => hb (allBlank_append_newline.mp h).1
        rw [if_neg hb, if_neg hno, answer_append_newline hb, answer_of_notMem hline]
    · rw [firstNonblank?_of_notMem h, answer_of_notMem h]

/-! ## What an answer looks like -/

/-- One line that is not blank at either end. -/
structure IsAnswer (v : List Char) : Prop where
  ne_nil : v ≠ []
  newline_notMem : '\n' ∉ v
  head : ∀ c ∈ v.head?, isBlank c = false
  last : ∀ c ∈ v.getLast?, isBlank c = false

theorem isAnswer_answer (h : ¬ AllBlank cs) : IsAnswer (answer cs) := by
  obtain ⟨c, rest, hdrop⟩ := List.exists_cons_of_ne_nil (mt dropWhile_isBlank_eq_nil_iff.mp h)
  have hc := not_isBlank_of_dropWhile hdrop
  have hline : (c != '\n') = true := by
    have hne : c ≠ '\n' := by
      rintro rfl
      exact absurd hc (by decide)
    simp [hne]
  have hanswer : answer cs = (c :: rest.takeWhile (· != '\n')).rdropWhile isBlank := by
    rw [answer, hdrop, List.takeWhile_cons, if_pos hline]
  have hne : answer cs ≠ [] := by
    rw [hanswer, ne_eq, List.rdropWhile_eq_nil_iff]
    intro hall
    simp [hall c (List.mem_cons_self ..)] at hc
  refine ⟨hne, fun hmem => ?_, fun d hd => ?_, fun d hd => ?_⟩
  · have hmem := (List.rdropWhile_prefix isBlank _).subset hmem
    simpa using List.mem_takeWhile_imp hmem
  · obtain ⟨tail, htail⟩ := List.rdropWhile_prefix isBlank (c :: rest.takeWhile (· != '\n'))
    rw [← hanswer] at htail
    obtain ⟨e, es, he⟩ := List.exists_cons_of_ne_nil hne
    rw [he] at htail hd
    obtain rfl : e = c := (List.cons.inj htail).1
    obtain rfl : e = d := by simpa using hd
    exact hc
  · have hlast := List.rdropWhile_last_not isBlank _ hne
    rw [List.getLast?_eq_some_getLast hne, Option.mem_some_iff] at hd
    rw [← hd]
    exact Bool.eq_false_iff.mpr hlast

/-- An answer is its own answer. -/
theorem IsAnswer.answer_eq (h : IsAnswer v) : answer v = v := by
  have hdrop : v.dropWhile isBlank = v := by
    rw [List.dropWhile_eq_self_iff]
    intro hl
    simp [h.head _ (List.head?_eq_getElem? (l := v) ▸ List.getElem?_eq_getElem hl)]
  rw [answer, hdrop, takeWhile_of_notMem h.newline_notMem, List.rdropWhile_eq_self_iff]
  intro hne
  simp [h.last _ (List.getLast?_eq_some_getLast hne)]

theorem IsAnswer.not_allBlank (h : IsAnswer v) : ¬ AllBlank v := by
  obtain ⟨c, rest, rfl⟩ := List.exists_cons_of_ne_nil h.ne_nil
  intro hb
  have hc := h.head c rfl
  rw [hb c (List.mem_cons_self ..)] at hc
  cases hc

end EclipseProject.Text
