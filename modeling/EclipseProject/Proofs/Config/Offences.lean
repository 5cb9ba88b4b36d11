import EclipseProject.Proofs.Config.Meaning

/-!
# The first offence

A table is met key by key, and the build plan in it step by step and target by target. Of all that does not fit, what is
met first is reported, and what is met later does not count. A text that is no document is refused before any of it is
met.
-/

namespace EclipseProject

/-- A value without what it contains. -/
def Toml.Value.head : Toml.Value → Toml.Value
  | .array _ => .array []
  | .table _ => .table []
  | v => v

def Toml.Value.elements : Toml.Value → List Toml.Value
  | .array vs => vs
  | _ => []

namespace Config

open Toml (Value)

/-! ## What is met in a table -/

/-- A key of the table itself, or a value where one of some kind is expected. What the value contains is met after it. -/
inductive Visit where
  | key (key : String)
  | value (expected : Expected) (found : Value)

/-- A date counts as a map. -/
def Expected.fits : Expected → Value → Bool
  | .string, .string _ => true
  | .map, .table _ => true
  | .map, .datetime _ => true
  | .sequence, .array _ => true
  | _, _ => false

def Visit.offence? : Visit → Option Offence
  | .key name => if name ∈ fieldNames then none else some (.unknownField name)
  | .value expected found => if expected.fits found then none else some (.wrongType (describe found) expected)

def visit (expected : Expected) (v : Value) : Visit := .value expected v.head

/-- Any name of a step will do. -/
def stepVisits (v : Value) : List Visit := visit .sequence v :: v.elements.map (visit .string)

/-- The one thing that a date holds is its text. -/
def planSteps : Value → List Value
  | .table es => es.map Prod.snd
  | .datetime d => [.string d.text]
  | _ => []

def planVisits (v : Value) : List Visit := visit .map v :: (planSteps v).flatMap stepVisits

/-- Nothing is met under a key that is not known. -/
def entryVisits (e : String × Value) : List Visit :=
  .key e.1 ::
    if e.1 = Field.build.key then planVisits e.2 else if e.1 ∈ fieldNames then [visit .string e.2] else []

def visits (t : List (String × Value)) : List Visit := t.flatMap entryVisits

/-! ## How a chain of readings is refused -/

def refusal? {ε α : Type} : Except ε α → Option ε
  | .ok _ => none
  | .error e => some e

section
variable {ε α β : Type}

@[simp] theorem refusal?_map (f : α → β) (x : Except ε α) : refusal? (x.map f) = refusal? x := by cases x <;> rfl

theorem refusal?_eq_some_iff {x : Except ε α} {e : ε} : refusal? x = some e ↔ x = .error e := by
  cases x <;> simp [refusal?]

theorem refusal?_bind (x : Except ε α) (f : α → Except ε β) {r : Option ε} (h : ∀ a, x = .ok a → refusal? (f a) = r) :
    refusal? (x >>= f) = (refusal? x).or r := by
  cases x with
  | ok a => exact h a rfl
  | error e => rfl

theorem refusal?_mapM (f : α → Except ε β) (xs : List α) :
    refusal? (xs.mapM f) = xs.findSome? fun x => refusal? (f x) := by
  induction xs with
  | nil => rfl
  | cons x xs ih =>
    have hrest (y : β) : refusal? (xs.mapM f >>= fun ys => pure (y :: ys)) = refusal? (xs.mapM f) := by
      exact (refusal?_bind (r := none) _ _ fun _ _ => rfl).trans Option.or_none
    rw [List.mapM_cons, refusal?_bind _ _ fun y _ => hrest y, ih, List.findSome?_cons]
    cases refusal? (f x) <;> rfl

theorem findSome?_flatMap (f : β → Option ε) (g : α → List β) (xs : List α) :
    (xs.flatMap g).findSome? f = xs.findSome? fun x => (g x).findSome? f := by
  rw [← List.head?_filterMap, List.filterMap_flatMap, List.head?_flatMap]
  simp only [List.head?_filterMap]

/-- If the state does not decide what is refused, the first that is refused is the answer. -/
theorem refusal?_foldlM {f : β → α → Except ε β} {g : α → Option ε} (h : ∀ b x, refusal? (f b x) = g x) (xs : List α)
    (b : β) : refusal? (xs.foldlM f b) = xs.findSome? g := by
  induction xs generalizing b with
  | nil => rfl
  | cons x xs ih =>
    rw [List.foldlM_cons, refusal?_bind _ _ fun b' _ => ih b', h, List.findSome?_cons]
    cases g x <;> rfl

end

/-! ## What is refused is the first that does not fit -/

theorem refusal?_text (v : Value) : refusal? (text v) = (visit .string v).offence? := by cases v <;> rfl

theorem refusal?_targets (v : Value) : refusal? (targets v) = (stepVisits v).findSome? Visit.offence? := by
  cases v with
  | array vs =>
    change refusal? (vs.mapM text) = (vs.map (visit .string)).findSome? Visit.offence?
    rw [refusal?_mapM, List.findSome?_map]
    exact congrArg (List.findSome? · vs) (funext refusal?_text)
  | _ => rfl

theorem refusal?_step (e : String × Value) : refusal? (step e) = (stepVisits e.2).findSome? Visit.offence? := by
  rw [step, refusal?_map, refusal?_targets]

theorem refusal?_steps (es : List (String × Value)) :
    refusal? (es.mapM step) = ((es.map Prod.snd).flatMap stepVisits).findSome? Visit.offence? := by
  rw [refusal?_mapM, findSome?_flatMap, List.findSome?_map]
  exact congrArg (List.findSome? · es) (funext refusal?_step)

theorem refusal?_plan (v : Value) : refusal? (plan v) = (planVisits v).findSome? Visit.offence? := by
  cases v with
  | table es =>
    change refusal? ((es.mapM step).map BuildPlan.ofList) = ((es.map Prod.snd).flatMap stepVisits).findSome? _
    rw [refusal?_map, refusal?_steps]
  | _ => rfl

theorem entryVisits_of_notMem {e : String × Value} (h : e.1 ∉ fieldNames) : entryVisits e = [.key e.1] := by
  have hbuild : e.1 ≠ Field.build.key := fun hb => h (hb ▸ by decide)
  rw [entryVisits, if_neg hbuild, if_neg h]

theorem entryVisits_key (f : Field) (v : Value) :
    entryVisits (f.key, v) = .key f.key :: if f = .build then planVisits v else [visit .string v] := by
  have hknown : f.key ∈ fieldNames := (mem_fieldNames_iff f.key).mpr ⟨f, rfl⟩
  simp only [entryVisits, Field.key_injective.eq_iff, hknown, if_true]

theorem offence?_known (f : Field) : (Visit.key f.key).offence? = none := if_pos ((mem_fieldNames_iff f.key).mpr ⟨f, rfl⟩)

theorem set_of_notMem {c : Config} {e : String × Value} (h : e.1 ∉ fieldNames) :
    set c e = .error (.unknownField e.1) := by
  unfold set
  split
  case h_7 => rfl
  all_goals exact absurd (‹e.1 = _› ▸ by decide) h

theorem refusal?_set (c : Config) (e : String × Value) :
    refusal? (set c e) = (entryVisits e).findSome? Visit.offence? := by
  obtain ⟨key, v⟩ := e
  by_cases hkey : key ∈ fieldNames
  · obtain ⟨f, rfl⟩ := (mem_fieldNames_iff key).mp hkey
    rw [entryVisits_key, List.findSome?_cons, offence?_known]
    cases f with
    | build => exact (refusal?_map ..).trans (refusal?_plan v)
    | _ => exact (refusal?_map ..).trans ((refusal?_text v).trans List.findSome?_singleton.symm)
  · have hunknown : (Visit.key key).offence? = some (.unknownField key) := if_neg hkey
    rw [entryVisits_of_notMem hkey, set_of_notMem hkey, List.findSome?_cons, hunknown]
    rfl

theorem refusal?_ofTable (t : List (String × Value)) : refusal? (ofTable t) = (visits t).findSome? Visit.offence? := by
  rw [ofTable, refusal?_foldlM refusal?_set, visits, findSome?_flatMap]

/-! ## The first offence -/

/-- What is met first fits, and then comes what does not. -/
structure FirstAt (t : List (String × Value)) (before : List Visit) (x : Visit) (o : Offence) : Prop where
  met : before ++ [x] <+: visits t
  fits : ∀ y ∈ before, y.offence? = none
  offends : x.offence? = some o

variable {t t' : List (String × Value)} {before : List Visit} {x : Visit} {o : Offence}

theorem ofTable_eq_error_iff : ofTable t = .error o ↔ ∃ before x, FirstAt t before x o := by
  rw [← refusal?_eq_some_iff, refusal?_ofTable, List.findSome?_eq_some_iff]
  constructor
  · rintro ⟨before, x, after, ht, hx, hbefore⟩
    exact ⟨before, x, ⟨after, by rw [ht, List.append_assoc, List.singleton_append]⟩, hbefore, hx⟩
  · rintro ⟨before, x, ⟨after, ht⟩, hbefore, hx⟩
    exact ⟨before, x, after, by rw [← ht, List.append_assoc, List.singleton_append], hx, hbefore⟩

theorem exists_ofTable_eq_ok_iff : (∃ c, ofTable t = .ok c) ↔ ∀ x ∈ visits t, x.offence? = none := by
  rw [← List.findSome?_eq_none_iff, ← refusal?_ofTable]
  cases ofTable t <;> simp [refusal?]

/-- **The first offence is reported, and syntax before it.** A text that is no document is refused as such, whatever it
contains. Of a document the first thing met that does not fit is reported; the same is reported of every document in
which the same is met up to there. A configuration comes only of a document in which everything fits. -/
theorem ofFile_reports_first {d : Disk} {path : Path} {content : String}
    (h : d.readFile path = .ok (Utf8.encode content)) :
    (Toml.parse content = none → ofFile d path = .error (.malformed path)) ∧
    ∀ t, Toml.parse content = some t →
      (∀ o, ofFile d path = .error (.misshapen path o) ↔ ∃ before x, FirstAt t before x o) ∧
      ((∃ c, ofFile d path = .ok c) ↔ ∀ x ∈ visits t, x.offence? = none) ∧
      (∀ c, ofFile d path = .ok c → Describes t c) ∧
      ∀ before x o, FirstAt t before x o → ∀ (d' : Disk) (path' : Path) (content' : String) t',
        d'.readFile path' = .ok (Utf8.encode content') → Toml.parse content' = some t' →
        before ++ [x] <+: visits t' → ofFile d' path' = .error (.misshapen path' o) := by
  have hfile (d : Disk) (path : Path) (content : String) (t : List (String × Value))
      (h : d.readFile path = .ok (Utf8.encode content)) (ht : Toml.parse content = some t) :
      ofFile d path = (ofTable t).mapError (.misshapen path) := by
    rw [ofFile_eq_ofText h, ofText, ht]
  refine ⟨fun hnone => ?_, fun t ht => ⟨fun o => ?_, ?_, fun c hc => ?_, ?_⟩⟩
  · rw [ofFile_eq_ofText h, ofText_eq_malformed_iff]
    exact hnone
  · rw [hfile d path content t h ht, ← ofTable_eq_error_iff]
    cases ofTable t <;> simp
  · rw [hfile d path content t h ht, ← exists_ofTable_eq_ok_iff]
    cases ofTable t <;> simp
  · rw [ofFile_eq_ofText h] at hc
    exact ((ofText_eq_ok_iff ht).mp hc).2
  · intro before x o hfirst d' path' content' t' h' ht' hsame
    have hfirst' : ofTable t' = .error o :=
      ofTable_eq_error_iff.mpr ⟨before, x, hsame, hfirst.fits, hfirst.offends⟩
    rw [hfile d' path' content' t' h' ht', hfirst']
    rfl

/-- A target that is a number counts, and neither what follows it nor an unknown key behind it. -/
theorem ofFile_reports_number :
    let file (content : String) := Disk.empty.put [[0x63]] (.file (Utf8.encode content) false)
    let first := "deps_jar = \"a\"\nbuild.x = [\"//..\", 7, 8]\nbazle = 1\n"
    let second := "deps_jar = \"a\"\nbuild.y = [\"//..\", 7]\nbazel = false\n"
    let refused := Except.error (.misshapen ⟨[0x63]⟩ (.wrongType "integer `7`" .string))
    ofFile (file first) ⟨[0x63]⟩ = refused ∧ ofFile (file second) ⟨[0x63]⟩ = refused := by
  intro file first second refused
  have hread (content : String) : (file content).readFile ⟨[0x63]⟩ = .ok (Utf8.encode content) := rfl
  let firstTable : List (String × Value) := [("deps_jar", .string "a"),
    ("build", .table [("x", .array [.string "//..", .integer 7, .integer 8])]), ("bazle", .integer 1)]
  let secondTable : List (String × Value) := [("deps_jar", .string "a"),
    ("build", .table [("y", .array [.string "//..", .integer 7])]), ("bazel", .boolean false)]
  let before : List Visit := [.key "deps_jar", .value .string (.string "a"), .key "build", .value .map (.table []),
    .value .sequence (.array []), .value .string (.string "//..")]
  have hfirst : Toml.parse first = some firstTable := by decide +kernel
  have hsecond : Toml.parse second = some secondTable := by decide +kernel
  have hat : FirstAt firstTable before (.value .string (.integer 7)) (.wrongType "integer `7`" .string) :=
    ⟨⟨_, rfl⟩, by decide, rfl⟩
  obtain ⟨hreport, _, _, hsame⟩ := (ofFile_reports_first (hread first)).2 _ hfirst
  exact ⟨(hreport _).mpr ⟨_, _, hat⟩, hsame _ _ _ hat _ _ _ _ (hread second) hsecond ⟨_, rfl⟩⟩

end Config

end EclipseProject
