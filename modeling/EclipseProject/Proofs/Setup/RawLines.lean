import EclipseProject.Proofs.Setup.Answers
import EclipseProject.Proofs.Setup.Output

/-!
# The lines of what is printed, valid or not

What a process prints need not be UTF-8. Still a line feed always ends a line: it is never part of a character, and no
character goes on behind it. So a query takes the answer of the first printed line that has one, whatever the bytes
before and behind it are.
-/

namespace EclipseProject

def Utf8.lineFeed : UInt8 := 0x0A

/-- The process is started, prints these bytes and succeeds. -/
def Launcher.Prints (l : Launcher) (s : Session) (i : Bazel.Invocation) (bytes : List UInt8) : Prop :=
  ∃ status d, l.launch s.calls s.disk i = .ok (⟨bytes, status⟩, d) ∧ status.success = true

namespace Launcher

def printing (bytes : List UInt8) : Launcher := ⟨fun _ d _ => .ok (⟨bytes, .ofExitCode 0⟩, d)⟩

theorem prints_printing (bytes : List UInt8) (s : Session) (i : Bazel.Invocation) : (printing bytes).Prints s i bytes :=
  ⟨_, _, rfl, by decide⟩

end Launcher

namespace Bazel

variable {l : Launcher} {s : Session} {program key : String} {bytes : List UInt8}

/-- What a query makes of the bytes that are printed for it. -/
def answerTo (program key : String) (bytes : List UInt8) : Except Error String :=
  answerIn program key (Utf8.decode bytes)

theorem result_info_of_prints (h : l.Prints s ((l.bazel program).invocation ["info", key]) bytes) :
    (((l.bazel program).info key).on s).1 = answerTo program key bytes := by
  obtain ⟨status, d, hlaunch, hsuccess⟩ := h
  have hcapture : ((l.bazel program).runner.capture s.calls s.disk ((l.bazel program).invocation ["info", key])).result =
      .ok (Utf8.decode bytes) := by
    have hverdict : Launcher.verdict ((l.bazel program).invocation ["info", key]) ⟨bytes, status⟩ = .ok () :=
      if_pos hsuccess
    change (l.capture s.calls s.disk _).result = _
    rw [Launcher.capture, hlaunch]
    change (Launcher.verdict _ _).map _ = _
    rw [hverdict]
    rfl
  rw [result_on_info, hcapture]
  rfl

theorem answerTo_append (program key : String) (a b : List UInt8) :
    answerTo program key (a ++ Utf8.lineFeed :: b) =
      if Text.AllBlank (Utf8.decode a).toList then answerTo program key b else answerTo program key a := by
  have hdecode : (Utf8.decode (a ++ Utf8.lineFeed :: b)).toList =
      (Utf8.decode a).toList ++ '\n' :: (Utf8.decode b).toList := Utf8.toList_decode_append (by decide) a b
  simp only [answerTo, answerIn, hdecode, Text.allBlank_append_newline]
  by_cases h : Text.AllBlank (Utf8.decode a).toList
  · simp only [h, true_and, if_true, Text.answer_append_of_allBlank h]
  · simp only [h, false_and, if_false, Text.answer_append_newline h]

theorem allBlank_of_answerTo {e : Error} (h : answerTo program key bytes = .error e) :
    Text.AllBlank (Utf8.decode bytes).toList := by
  by_contra hb
  rw [answerTo, answerIn_of_not_allBlank hb] at h
  cases h

theorem not_allBlank_of_answerTo {v : String} (h : answerTo program key bytes = .ok v) :
    ¬ Text.AllBlank (Utf8.decode bytes).toList := by
  intro hb
  rw [answerTo, answerIn, if_pos hb] at h
  cases h

theorem toOption_answerTo_append (program key : String) (a b : List UInt8) :
    (answerTo program key (a ++ Utf8.lineFeed :: b)).toOption =
      (answerTo program key a).toOption.or (answerTo program key b).toOption := by
  rw [answerTo_append]
  cases ha : answerTo program key a with
  | ok v => rw [if_neg (not_allBlank_of_answerTo ha)]; rfl
  | error e => rw [if_pos (allBlank_of_answerTo ha)]; rfl

/-- Put together from lines, the bytes are answered as the first line is that has an answer. -/
theorem toOption_answerTo_intercalate {lines : List (List UInt8)} (h : lines ≠ []) :
    (answerTo program key ([Utf8.lineFeed].intercalate lines)).toOption =
      lines.findSome? fun line => (answerTo program key line).toOption := by
  induction lines with
  | nil => exact absurd rfl h
  | cons line lines ih =>
    rw [List.findSome?_cons]
    by_cases hlines : lines = []
    · rw [hlines, List.intercalate_singleton]
      cases (answerTo program key line).toOption <;> rfl
    · rw [List.intercalate_cons_of_ne_nil hlines, List.append_assoc, List.singleton_append,
        toOption_answerTo_append, ih hlines]
      cases (answerTo program key line).toOption <;> rfl

/-- **A query takes the first printed line that has an answer.** Whatever the process prints, a line feed separates it:
if what is before has an answer, that is the answer, and otherwise it is that of what is behind. -/
theorem info_takes_first (program key : String) (l : List UInt8 → Launcher) (s : List UInt8 → Session)
    (h : ∀ x, (l x).Prints (s x) ⟨program, ["info", key]⟩ x) :
    let answered (x : List UInt8) := ((((l x).bazel program).info key).on (s x)).1
    (∀ a b, (∀ v, answered a = .ok v → answered (a ++ Utf8.lineFeed :: b) = .ok v) ∧
      ∀ e, answered a = .error e → answered (a ++ Utf8.lineFeed :: b) = answered b) ∧
    ∀ x v, answered x = .ok v ↔
      (x.splitOn Utf8.lineFeed).findSome? (fun line => (answered line).toOption) = some v := by
  intro answered
  have hanswered (x : List UInt8) : answered x = answerTo program key x := result_info_of_prints (h x)
  simp only [hanswered]
  refine ⟨fun a b => ⟨fun v ha => ?_, fun e ha => ?_⟩, fun x v => ?_⟩
  · rw [answerTo_append, if_neg (not_allBlank_of_answerTo ha), ha]
  · rw [answerTo_append, if_pos (allBlank_of_answerTo ha)]
  · have hlines : (answerTo program key ([Utf8.lineFeed].intercalate (x.splitOn Utf8.lineFeed))).toOption = _ :=
      toOption_answerTo_intercalate (List.splitOn_ne_nil _ _)
    rw [List.intercalate_splitOn] at hlines
    rw [← hlines]
    cases answerTo program key x <;> simp [Except.toOption]

/-- A blank line goes before, and the answer is a character that was cut off. -/
theorem info_takes_first_of_unfinished :
    let answered (x : List UInt8) := ((((Launcher.printing x).bazel "bazel").info "workspace").on (.ofDisk .empty)).1
    let blank := [0x20, 0x0D]
    let unfinished := [0xE2, 0x82]
    (∀ x, (Launcher.printing x).Prints (.ofDisk .empty) ⟨"bazel", ["info", "workspace"]⟩ x) ∧
      answered (blank ++ Utf8.lineFeed :: (unfinished ++ Utf8.lineFeed :: [0xAC, 0xFF])) = .ok "\uFFFD" := by
  intro answered blank unfinished
  have hprints := fun x => Launcher.prints_printing x (.ofDisk .empty) ⟨"bazel", ["info", "workspace"]⟩
  have hfirst := (info_takes_first "bazel" "workspace" Launcher.printing (fun _ => .ofDisk .empty) hprints).1
  have hblank : answered blank = .error (.emptyInfo "bazel info workspace") := by decide +kernel
  have hunfinished : answered unfinished = .ok "\uFFFD" := by decide +kernel
  exact ⟨hprints, ((hfirst blank _).2 _ hblank).trans ((hfirst unfinished _).1 _ hunfinished)⟩

end Bazel

end EclipseProject
