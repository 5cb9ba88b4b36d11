import EclipseProject.Proofs.Staging.Drawing
import EclipseProject.Staging.Preview

/-!
# Colors change nothing but color codes

Deleting the color codes from a text in colors leaves what it leaves of the text without colors. Names may hold codes
themselves, whole ones or the beginning of one. A code holds one escape, at its start, so an escape always begins
something new, and a text can be cut in front of each. All that is said of deletion follows from that.
-/

namespace EclipseProject

namespace Style

/-! ## Color codes -/

def isParameter (c : Char) : Bool := c.isDigit || c == ';'

/-- What is left of a text that begins with a color code: an escape, a bracket, digits and semicolons, and an m. -/
def behindCode? : List Char → Option (List Char)
  | '\x1b' :: '[' :: rest =>
    match rest.dropWhile isParameter with
    | 'm' :: behind => some behind
    | _ => none
  | _ => none

theorem length_behindCode? {cs behind : List Char} (h : behindCode? cs = some behind) : behind.length < cs.length := by
  unfold behindCode? at h
  split at h
  · next rest =>
    split at h
    · next more hdrop =>
      cases h
      have hlength := (rest.dropWhile_suffix isParameter).length_le
      rw [hdrop] at hlength
      simp only [List.length_cons] at hlength ⊢
      omega
    · cases h
  · cases h

/-- Deletes the color codes in one pass from left to right. -/
def strip : List Char → List Char
  | [] => []
  | c :: rest =>
    match _h : behindCode? (c :: rest) with
    | some behind => strip behind
    | none => c :: strip rest
termination_by cs => cs.length
decreasing_by
  · exact length_behindCode? _h
  · exact Nat.lt_succ_self rest.length

-- What is left is not looked at again, although it may be a code.
example : strip "a\x1b[3\x1b[0m1mb".toList = "a\x1b[31mb".toList := by cbv

/-- No color code has the character behind its first. -/
def isOuter (c : Char) : Bool := !(isParameter c || c == '[' || c == 'm')

variable {c : Char} {xs ys text rest : List Char}

theorem isOuter_iff : isOuter c = true ↔ isParameter c = false ∧ c ≠ '[' ∧ c ≠ 'm' := by
  simp [isOuter, and_assoc]

theorem behindCode?_of_ne (h : c ≠ '\x1b') (rest : List Char) : behindCode? (c :: rest) = none := by
  unfold behindCode?
  split
  · next hcons => exact absurd (List.cons.inj hcons).1 h
  · rfl

/-- Whether a text begins with a code is settled before the next outer character. -/
theorem behindCode?_append_outer (hc : isOuter c = true) (hxs : xs ≠ []) (ys : List Char) :
    behindCode? (xs ++ c :: ys) = (behindCode? xs).map (· ++ c :: ys) := by
  obtain ⟨hparameter, hbracket, hm⟩ := isOuter_iff.mp hc
  obtain ⟨x, xs, rfl⟩ := List.exists_cons_of_ne_nil hxs
  by_cases hx : x = '\x1b'
  · subst hx
    cases xs with
    | nil => simp [behindCode?, hbracket]
    | cons y xs =>
      by_cases hy : y = '['
      · subst hy
        have hdrop : (xs ++ c :: ys).dropWhile isParameter = xs.dropWhile isParameter ++ c :: ys := by
          rw [List.dropWhile_append]
          split
          · next hnil => rw [List.isEmpty_iff.mp hnil, List.dropWhile_cons_of_neg (by simp [hparameter])]; rfl
          · rfl
        simp only [List.cons_append, behindCode?, hdrop]
        cases xs.dropWhile isParameter with
        | nil => simp [hm]
        | cons d more => by_cases hd : d = 'm' <;> simp [hd]
      · simp [behindCode?, hy]
  · rw [List.cons_append, behindCode?_of_ne hx, behindCode?_of_ne hx, Option.map_none]

/-! ## Deletion -/

theorem strip_of_some {behind : List Char} (h : behindCode? xs = some behind) : strip xs = strip behind := by
  cases xs with
  | nil => cases h
  | cons x xs =>
    rw [strip]
    split
    · next h' => rw [h] at h'; rw [Option.some.inj h']
    · next h' => rw [h] at h'; cases h'

theorem strip_of_none {x : Char} (h : behindCode? (x :: xs) = none) : strip (x :: xs) = x :: strip xs := by
  rw [strip]
  split
  · next h' => rw [h] at h'; cases h'
  · rfl

/-- A text is cut in front of an outer character. -/
theorem strip_append_outer (hc : isOuter c = true) (xs ys : List Char) :
    strip (xs ++ c :: ys) = strip xs ++ strip (c :: ys) := by
  fun_induction strip xs with
  | case1 => rfl
  | case2 x xs behind h ih =>
    have hcode := behindCode?_append_outer hc (List.cons_ne_nil x xs) ys
    rw [h] at hcode
    rw [strip_of_some hcode, ih]
  | case3 x xs h ih =>
    have hcode := behindCode?_append_outer hc (List.cons_ne_nil x xs) ys
    rw [h] at hcode
    calc strip (x :: (xs ++ c :: ys)) = x :: strip (xs ++ c :: ys) := strip_of_none hcode
      _ = x :: strip xs ++ strip (c :: ys) := by rw [ih, List.cons_append]

theorem strip_append_of_notMem (h : '\x1b' ∉ xs) (ys : List Char) : strip (xs ++ ys) = xs ++ strip ys := by
  induction xs with
  | nil => rfl
  | cons x xs ih =>
    rw [List.mem_cons, not_or] at h
    rw [List.cons_append, strip_of_none (behindCode?_of_ne (Ne.symm h.1) _), ih h.2, List.cons_append]

theorem strip_of_notMem (h : '\x1b' ∉ xs) : strip xs = xs := by
  have hstrip := strip_append_of_notMem h []
  rwa [List.append_nil, strip, List.append_nil] at hstrip

theorem strip_code {code : List Char} (h : code.all isParameter = true) (rest : List Char) :
    strip ('\x1b' :: '[' :: code ++ 'm' :: rest) = strip rest := by
  have hdrop : (code ++ 'm' :: rest).dropWhile isParameter = 'm' :: rest :=
    Text.dropWhile_run (List.all_eq_true.mp h) (by simp; decide)
  apply strip_of_some
  simp [behindCode?, hdrop]

theorem isParameter_codes (style : Style) : ∀ code ∈ style.codes, code.toList.all isParameter = true := by
  cases style <;> decide

theorem strip_opening (style : Style) (rest : List Char) : strip (style.opening ++ rest) = strip rest := by
  have hcodes := isParameter_codes style
  unfold opening
  generalize style.codes = codes at hcodes
  induction codes with
  | nil => rfl
  | cons code codes ih =>
    obtain ⟨hcode, hcodes⟩ := List.forall_mem_cons.mp hcodes
    have hstep := strip_code hcode (codes.flatMap (fun code => '\x1b' :: '[' :: code.toList ++ ['m']) ++ rest)
    rw [List.flatMap_cons]
    simp only [List.append_assoc, List.cons_append, List.nil_append] at hstep ⊢
    rw [hstep]
    exact ih hcodes

theorem strip_append_reset (xs rest : List Char) : strip (xs ++ (reset ++ rest)) = strip xs ++ strip rest := by
  have hzero : ['0'].all isParameter = true := by decide
  have hcode : strip (reset ++ rest) = strip rest := strip_code hzero rest
  rw [← hcode]
  exact strip_append_outer (by decide) xs _

/-- A reset in the text is deleted with the codes that follow it. -/
theorem strip_append_reopen (style : Style) (text xs : List Char) :
    strip (xs ++ reopen style.opening text) = strip (xs ++ text) := by
  induction text using reopen.induct generalizing xs with
  | case1 => rfl
  | case2 rest ih =>
    have hrest : strip (reopen style.opening rest) = strip rest := ih []
    calc strip (xs ++ (reset ++ style.opening ++ reopen style.opening rest))
      _ = strip xs ++ strip rest := by rw [List.append_assoc, strip_append_reset, strip_opening, hrest]
      _ = strip (xs ++ (reset ++ rest)) := (strip_append_reset xs rest).symm
  -- no reset begins here, so the character goes to the text in front
  | case3 c rest h ih =>
    have hstep := ih (xs ++ [c])
    rw [List.append_assoc, List.append_assoc] at hstep
    rw [reopen]
    · exact hstep
    · exact h

theorem strip_enclose (style : Style) (text rest : List Char) :
    strip (style.enclose (reopen style.opening text) ++ rest) = strip text ++ strip rest := by
  have htext : strip (reopen style.opening text) = strip text := strip_append_reopen style text []
  unfold enclose
  rw [List.append_assoc, List.append_assoc, strip_opening, strip_append_reset, htext]

theorem strip_paint (colored : Bool) (style : Style) (text : String) (hc : isOuter c = true) (rest : List Char) :
    strip ((style.paint colored text).toList ++ c :: rest) = strip text.toList ++ strip (c :: rest) := by
  unfold paint
  cases colored with
  | false => exact strip_append_outer hc _ _
  | true =>
    rw [if_pos rfl, String.toList_ofList]
    exact strip_enclose style _ _

theorem strip_paint_of_notMem (colored : Bool) (style : Style) {text : String} (h : '\x1b' ∉ text.toList)
    (rest : List Char) : strip ((style.paint colored text).toList ++ rest) = text.toList ++ strip rest := by
  unfold paint
  cases colored with
  | false => exact strip_append_of_notMem h rest
  | true =>
    rw [if_pos rfl, String.toList_ofList, strip_enclose, strip_of_notMem h]

/-! ## Whether a text stands in the codes of a style -/

/-- The text stands at the end of the line, between the codes of the style. -/
def EndsLine (style : Style) (text line : List Char) : Prop := ∃ front, line = front ++ style.enclose text ++ ['\n']

theorem reopen_of_notMem (h : '\x1b' ∉ text) (again : List Char) : reopen again text = text := by
  induction text with
  | nil => rfl
  | cons c text ih =>
    rw [List.mem_cons, not_or] at h
    rw [reopen, ih h.2]
    rintro rest rfl
    exact absurd rfl h.1

theorem EndsLine.opening_eq {style style' : Style} {line : List Char} (h : style.EndsLine text line)
    (h' : style'.EndsLine text line) (hlength : style.opening.length = style'.opening.length) :
    style.opening = style'.opening := by
  obtain ⟨front, rfl⟩ := h
  obtain ⟨front', hline⟩ := h'
  have henclosed := (List.append_inj' (List.append_inj' hline rfl).1 (by simp [enclose, hlength])).2
  exact (List.append_inj (List.append_inj' henclosed rfl).1 hlength).1

end Style

namespace Staging

open Style

/-! ## Texts in colors -/

theorem strip_legend (colored : Bool) (rest : List Char) :
    strip ((legend colored).toList ++ rest) = (legend false).toList ++ strip rest := by
  simp only [legend, String.toList_append, List.append_assoc]
  rw [strip_append_of_notMem (by decide), strip_paint_of_notMem _ _ (by decide), strip_append_of_notMem (by decide),
    strip_paint_of_notMem _ _ (by decide), strip_append_of_notMem (by decide)]
  simp only [paint, Bool.false_eq_true, if_false]

theorem strip_banner (colored : Bool) (rest : List Char) :
    strip ((banner colored).toList ++ rest) = (banner false).toList ++ strip rest := by
  simp only [banner, String.toList_append, List.append_assoc]
  rw [strip_paint_of_notMem _ _ (by decide), strip_append_of_notMem (by decide),
    strip_paint_of_notMem _ _ (by decide), strip_append_of_notMem (by decide)]
  simp only [paint, Bool.false_eq_true, if_false]

namespace Tree

/-- The line without colors and without the codes in its name. -/
def Line.stripped (l : Line) : List Char :=
  l.above.flatMap (fun b => (unit b).toList) ++ (connector l.isLast).toList ++ strip l.name.toList ++ ['\n']

theorem strip_text (colored : Bool) (l : Line) (rest : List Char) :
    strip ((l.text colored).toList ++ rest) = l.stripped ++ strip rest := by
  have hunit (b : Bool) : '\x1b' ∉ (unit b).toList := by cases b <;> decide
  have hunits : '\x1b' ∉ l.above.flatMap (fun b => (unit b).toList) := by simp [hunit]
  have hconnector : '\x1b' ∉ (connector l.isLast).toList := by cases l.isLast <;> decide
  have hnewline : strip ('\n' :: rest) = '\n' :: strip rest := strip_of_none (behindCode?_of_ne (by decide) rest)
  have hend : "\n".toList ++ rest = '\n' :: rest := rfl
  unfold Line.text Line.stripped
  simp only [String.toList_append, String.toList_join, List.flatMap_map, List.append_assoc]
  rw [strip_append_of_notMem hunits, strip_paint_of_notMem _ _ hconnector, hend, strip_paint _ _ _ (by decide),
    hnewline]
  rfl

theorem strip_draw (colored : Bool) (t : Tree) :
    strip (t.draw colored).toList = (t.lines [] true).flatMap Line.stripped := by
  unfold draw
  rw [String.toList_join, List.flatMap_map]
  induction t.lines [] true with
  | nil => rw [List.flatMap_nil, List.flatMap_nil, strip]
  | cons l ls ih => rw [List.flatMap_cons, strip_text, ih, List.flatMap_cons]

/-! ## The colors of the nodes -/

theorem labels_childLines (ts : List Tree) : ∀ above, (childLines above ts).map (fun l => (l.name, l.kind)) =
    (childNodes ts).map (fun x => x.2.label) := by
  induction ts using forestInduction with
  | nil => exact fun _ => rfl
  | cons n k cs ts children later =>
    intro above
    simp only [childLines, lines, childNodes, nodes, List.map_append, List.map_cons, List.map_map, children, later]
    rfl

theorem labels_lines (t : Tree) :
    List.Forall₂ (fun x l => (l.name, l.kind) = x.2.label) t.nodes (t.lines [] true) := by
  obtain ⟨n, k, ts⟩ := t
  have hlabels : ((node n k ts).lines [] true).map (fun l => (l.name, l.kind)) =
      (node n k ts).nodes.map (fun x => x.2.label) := by
    rw [lines, nodes, List.map_cons, List.map_cons, labels_childLines]
    rfl
  rw [← List.forall₂_eq_eq_eq, List.forall₂_map_left_iff, List.forall₂_map_right_iff] at hlabels
  exact hlabels.flip

theorem forall₂_and {α β : Type} {R S : α → β → Prop} {as : List α} {bs : List β} (h : List.Forall₂ R as bs)
    (h' : List.Forall₂ S as bs) : List.Forall₂ (fun a b => R a b ∧ S a b) as bs := by
  induction h with
  | nil => exact .nil
  | cons hr _ ih =>
    cases h' with
    | cons hs h' => exact .cons ⟨hr, hs⟩ (ih h')

def nameStyle : Kind → Style
  | .file => .green
  | .directory => .blue

theorem length_opening (k : Kind) : (nameStyle k).opening.length = 5 := by
  cases k <;> decide

theorem opening_nameStyle_injective {j k : Kind} (h : (nameStyle j).opening = (nameStyle k).opening) : j = k := by
  revert h
  cases j <;> cases k <;> decide

theorem endsLine_text (l : Line) (h : '\x1b' ∉ l.name.toList) :
    (nameStyle l.kind).EndsLine l.name.toList (l.text true).toList := by
  refine ⟨(String.join (l.above.map unit) ++ Style.yellow.paint true (connector l.isLast)).toList, ?_⟩
  unfold Line.text
  cases l.kind <;> simp [paint, reopen_of_notMem h, nameStyle]

theorem endsLine_text_iff {l : Line} (h : '\x1b' ∉ l.name.toList) {k : Kind} :
    (nameStyle k).EndsLine l.name.toList (l.text true).toList ↔ l.kind = k := by
  constructor
  · intro hk
    have hlength := (length_opening l.kind).trans (length_opening k).symm
    exact opening_nameStyle_injective ((endsLine_text l h).opening_eq hk hlength)
  · rintro rfl
    exact endsLine_text l h

/-- **Colors add color codes and nothing else.** With the codes deleted, a drawing in colors is the drawing without
them, whatever the names hold, and so is the whole preview. A name without an escape stands between the codes for
green exactly if its node is a file, and between those for blue exactly if it is a directory. -/
theorem colors_add_codes (r : Record) (root : Path) :
    let t := ofRecord r root
    strip (t.draw true).toList = strip (t.draw false).toList ∧
    strip (preview true r root).toList = strip (preview false r root).toList ∧
    ∃ ls : List Line, t.draw true = String.join (ls.map (Line.text true)) ∧
      List.Forall₂ (fun x l => l.row.Shows t x.1 x.2 ∧ ('\x1b' ∉ x.2.name.toList →
        (Style.green.EndsLine x.2.name.toList (l.text true).toList ↔ x.2.kind = .file) ∧
        (Style.blue.EndsLine x.2.name.toList (l.text true).toList ↔ x.2.kind = .directory))) t.nodes ls := by
  intro t
  refine ⟨?_, ?_, t.lines [] true, rfl, ?_⟩
  · rw [strip_draw, strip_draw]
  · unfold preview
    simp only [String.toList_append, List.append_assoc]
    rw [strip_legend, strip_banner, strip_draw, strip_legend false, strip_banner false, strip_draw]
  · refine (forall₂_and (shows_lines (distinct_ofRecord r root)) (labels_lines t)).imp ?_
    rintro x l ⟨hshows, hlabel⟩
    obtain ⟨hname, hkind⟩ : l.name = x.2.name ∧ l.kind = x.2.kind := Prod.mk.inj hlabel
    refine ⟨hshows, fun h => ?_⟩
    rw [← hname] at h ⊢
    rw [← hkind]
    exact ⟨endsLine_text_iff h (k := .file), endsLine_text_iff h (k := .directory)⟩

end Tree

end Staging

end EclipseProject
