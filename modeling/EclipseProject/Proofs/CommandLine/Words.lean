import EclipseProject.CommandLine.Arguments

/-!
# What words come to

Arguments are words: switches, files and names. Words are admissible if none is given twice, and what they come to is
said of them as a whole. Taking them one after the other comes to the same.
-/

namespace EclipseProject.CommandLine

/-! ## Words -/

namespace Switch

def long : Switch → String
  | .verbose => "--verbose"
  | .dryRun => "--dry-run"
  | .help => "--help"
  | .version => "--version"

def letter? : Switch → Option Char
  | .verbose => some 'v'
  | .dryRun => none
  | .help => some 'h'
  | .version => some 'V'

/-- A request is answered when it is met. -/
def requests : Switch → Bool
  | .help => true
  | .version => true
  | _ => false

end Switch

inductive Word where
  | switch (s : Switch)
  | file (path : String)
  | name (name : String)
  deriving DecidableEq, Repr

/-- What can be given once. -/
inductive Word.Kind where
  | switch (s : Switch)
  | file
  | name
  deriving DecidableEq, Repr

namespace Word

def kind : Word → Kind
  | .switch s => .switch s
  | .file _ => .file
  | .name _ => .name

def file? : Word → Option String
  | .file path => some path
  | _ => none

def name? : Word → Option String
  | .name n => some n
  | _ => none

def requests : Word → Bool
  | .switch s => s.requests
  | _ => false

end Word

/-- Nothing is given twice, and no file goes without a path. -/
def Admissible (ws : List Word) : Prop := (ws.map Word.kind).Nodup ∧ .file "" ∉ ws

instance (ws : List Word) : Decidable (Admissible ws) := inferInstanceAs (Decidable (_ ∧ _))

def Arguments.ofWords (ws : List Word) : Arguments where
  verbose := .switch .verbose ∈ ws
  dryRun := .switch .dryRun ∈ ws
  configuration := ws.findSome? Word.file?
  projectName := ws.findSome? Word.name?
  pending := .nothing

/-! ## What words come to -/

/-- The result is what the words come to, read from the left. -/
def Comes (ws : List Word) : Except Stop Arguments → Prop
  | .ok a => Admissible ws ∧ (∀ w ∈ ws, w.requests = false) ∧ a = .ofWords ws
  | .error .help => Admissible ws ∧ .switch .help ∈ ws ∧ .switch .version ∉ ws
  | .error .version => Admissible ws ∧ .switch .version ∈ ws ∧ .switch .help ∉ ws
  | .error (.usage _) => ¬Admissible ws

variable {ws ws' : List Word} {w : Word} {a b : Arguments} {e : UsageError} {f n : String} {s : Switch}
  {x : Except Stop Arguments} {k : Arguments → Except Stop Arguments}

theorem Admissible.of_append (h : Admissible (ws ++ ws')) : Admissible ws := by
  obtain ⟨hnodup, hfile⟩ := h
  rw [List.map_append] at hnodup
  exact ⟨(List.nodup_append.mp hnodup).1, fun hmem => hfile (List.mem_append_left _ hmem)⟩

theorem admissible_append_one : Admissible (ws ++ [w]) ↔ Admissible ws ∧ w.kind ∉ ws.map Word.kind ∧ w ≠ .file "" := by
  simp only [Admissible, List.map_append, List.map_cons, List.map_nil, List.nodup_append, List.mem_append,
    List.mem_singleton]
  grind

theorem not_admissible_again (h : w.kind ∈ ws.map Word.kind) : ¬Admissible (ws ++ [w]) :=
  fun hadmissible => (admissible_append_one.mp hadmissible).2.1 h

theorem reads_append_one (hreads : ∀ w ∈ ws, w.requests = false) (hw : w.requests = false) :
    ∀ w' ∈ ws ++ [w], w'.requests = false := by
  intro w' hw'
  obtain hw' | hw' := List.mem_append.mp hw'
  · exact hreads w' hw'
  · rwa [List.mem_singleton.mp hw']

theorem mem_kinds_switch : .switch s ∈ ws.map Word.kind ↔ .switch s ∈ ws := by
  rw [List.mem_map]
  constructor
  · rintro ⟨w, hw, hkind⟩
    cases w <;> cases hkind
    exact hw
  · exact fun h => ⟨_, h, rfl⟩

theorem isSome_file_iff : (ws.findSome? Word.file?).isSome ↔ .file ∈ ws.map Word.kind := by
  rw [List.findSome?_isSome_iff, List.mem_map]
  refine exists_congr fun w => and_congr_right fun _ => ?_
  cases w <;> simp [Word.file?, Word.kind]

theorem isSome_name_iff : (ws.findSome? Word.name?).isSome ↔ .name ∈ ws.map Word.kind := by
  rw [List.findSome?_isSome_iff, List.mem_map]
  refine exists_congr fun w => and_congr_right fun _ => ?_
  cases w <;> simp [Word.name?, Word.kind]

theorem settle_projectName (h : a.settle = .ok b) : b.projectName = a.projectName := by
  unfold Arguments.settle at h
  split at h
  · cases h
    rfl
  · cases h
  · unfold Arguments.setConfiguration at h
    split at h
    · cases h
    · split at h
      · cases h
      · cases h
        rfl

theorem comes_initial : Comes [] (.ok .initial) := ⟨by decide, by simp, rfl⟩

namespace Comes

theorem settle (h : Comes ws (.ok a)) : a.settle = .ok a := by
  obtain ⟨_, _, rfl⟩ := h
  rfl

/-- Words after a failure change nothing, unless a request was answered. -/
theorem bind (h : Comes ws x) (hreads : ∀ w ∈ ws, w.requests = false)
    (hk : ∀ a, x = .ok a → Comes (ws ++ ws') (k a)) : Comes (ws ++ ws') (x >>= k) := by
  cases x with
  | ok a => exact hk a rfl
  | error stop =>
    cases stop with
    | help => cases hreads _ h.2.1
    | version => cases hreads _ h.2.1
    | usage e => exact fun hadmissible => h hadmissible.of_append

theorem ok_append_one (h : Comes ws (.ok a)) (hw : w.requests = false) (hkind : w.kind ∉ ws.map Word.kind)
    (hfile : w ≠ .file "") (hb : b = .ofWords (ws ++ [w])) : Comes (ws ++ [w]) (.ok b) := by
  obtain ⟨hadmissible, hreads, _⟩ := h
  exact ⟨admissible_append_one.mpr ⟨hadmissible, hkind, hfile⟩, reads_append_one hreads hw, hb⟩

theorem setConfiguration (h : Comes ws (.ok a)) : Comes (ws ++ [.file f]) (a.setConfiguration f) := by
  obtain rfl := h.2.2
  unfold Arguments.setConfiguration
  by_cases hagain : (Arguments.ofWords ws).configuration.isSome
  · rw [if_pos hagain]
    exact not_admissible_again (isSome_file_iff.mp hagain)
  rw [if_neg hagain]
  by_cases hempty : f = ""
  · rw [if_pos hempty]
    exact fun hadmissible => (admissible_append_one.mp hadmissible).2.2 (congrArg _ hempty)
  · rw [if_neg hempty]
    have hnone : ws.findSome? Word.file? = none := Option.not_isSome_iff_eq_none.mp hagain
    refine h.ok_append_one rfl (mt isSome_file_iff.mpr hagain) (by simpa using hempty) ?_
    simp [Arguments.ofWords, List.findSome?_append, hnone, Word.file?, Word.name?]

theorem attachConfiguration (h : Comes ws a.settle) (hreads : ∀ w ∈ ws, w.requests = false) :
    Comes (ws ++ [.file f]) (a.attachConfiguration f) :=
  h.bind hreads fun _ hb => setConfiguration (hb ▸ h)

theorem flag (h : Comes ws (.ok a)) {given : Bool} (hs : s.requests = false) (hgiven : given = decide (.switch s ∈ ws))
    (hb : b = .ofWords (ws ++ [.switch s])) (option : String) :
    Comes (ws ++ [.switch s]) (if given then Arguments.fail (.repeated option) else .ok b) := by
  subst hgiven
  by_cases hagain : .switch s ∈ ws
  · simp only [hagain, decide_true, if_true]
    exact not_admissible_again (mem_kinds_switch.mpr hagain)
  · simp only [hagain, decide_false]
    exact h.ok_append_one hs (mt mem_kinds_switch.mp hagain) (by simp) hb

theorem request (h : Comes ws (.ok a)) (hs : s.requests = true) :
    Admissible (ws ++ [.switch s]) ∧ ∀ s' : Switch, s'.requests = true → .switch s' ∈ ws ++ [.switch s] → s' = s := by
  obtain ⟨hadmissible, hreads, _⟩ := h
  have hother : ∀ s' : Switch, s'.requests = true → .switch s' ∉ ws := fun s' hs' hmem => by
    cases hs'.symm.trans (hreads _ hmem)
  refine ⟨admissible_append_one.mpr ⟨hadmissible, mt mem_kinds_switch.mp (hother s hs), by simp⟩, fun s' hs' hmem => ?_⟩
  simpa [hother s' hs'] using hmem

theorem switch (h : Comes ws a.settle) (hreads : ∀ w ∈ ws, w.requests = false) :
    Comes (ws ++ [.switch s]) (a.switch s) := by
  refine h.bind hreads fun b hb => ?_
  rw [hb] at h
  obtain rfl := h.2.2
  cases s with
  | verbose => exact h.flag rfl rfl (by simp [Arguments.ofWords, List.findSome?_append, Word.file?, Word.name?]) _
  | dryRun => exact h.flag rfl rfl (by simp [Arguments.ofWords, List.findSome?_append, Word.file?, Word.name?]) _
  | help =>
    obtain ⟨hadmissible, honly⟩ := h.request (s := .help) rfl
    exact ⟨hadmissible, by simp, fun hmem => nomatch honly .version rfl hmem⟩
  | version =>
    obtain ⟨hadmissible, honly⟩ := h.request (s := .version) rfl
    exact ⟨hadmissible, by simp, fun hmem => nomatch honly .help rfl hmem⟩

theorem ok_of_admissible (h : Comes ws x) (hreads : ∀ w ∈ ws, w.requests = false) (hadmissible : Admissible ws) :
    x = .ok (.ofWords ws) := by
  cases x with
  | ok a => exact congrArg _ h.2.2
  | error stop =>
    cases stop with
    | help => cases hreads _ h.2.1
    | version => cases hreads _ h.2.1
    | usage e => exact absurd hadmissible h

theorem addName (h : Comes ws a.settle) (hreads : ∀ w ∈ ws, w.requests = false) :
    Comes (ws ++ [.name n]) (a.addName n) := by
  unfold Arguments.addName
  by_cases hagain : a.projectName.isSome
  · rw [if_pos hagain]
    intro hadmissible
    have hname := settle_projectName (h.ok_of_admissible hreads hadmissible.of_append)
    rw [← hname] at hagain
    exact not_admissible_again (isSome_name_iff.mp hagain) hadmissible
  · rw [if_neg hagain]
    refine h.bind hreads fun b hb => ?_
    rw [← settle_projectName hb] at hagain
    rw [hb] at h
    obtain rfl := h.2.2
    have hnone : ws.findSome? Word.name? = none := Option.not_isSome_iff_eq_none.mp hagain
    refine h.ok_append_one rfl (mt isSome_name_iff.mpr hagain) (by simp) ?_
    simp [Arguments.ofWords, List.findSome?_append, hnone, Word.file?, Word.name?]

end Comes

end EclipseProject.CommandLine
