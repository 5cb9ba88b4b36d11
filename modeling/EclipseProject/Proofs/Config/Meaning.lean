import EclipseProject.Config.Load
import EclipseProject.Proofs.Disk.Following
import EclipseProject.Proofs.Text.Utf8
import EclipseProject.Proofs.Toml.Distinct
import Mathlib.Data.Set.List

/-!
# What a configuration file means

The configuration that is loaded is told from the table in the file without following how it is built up: a field
has the value under its key, or its default. So the order of the keys does not matter, and nothing of the default
build plan is left where the table has one.
-/

namespace EclipseProject

/-! ## Build plans as values -/

namespace BuildPlan

theorem put_of_notMem {name : String} {targets : List String} {ss : List BuildStep} (h : name ∉ ss.map Prod.fst) :
    put name targets ss = ss ++ [(name, targets)] := by
  induction ss with
  | nil => rfl
  | cons s ss ih =>
    obtain ⟨hs, hss⟩ := not_or.mp (List.mem_cons.not.mp h)
    rw [put, if_neg (Ne.symm hs), ih hss, List.cons_append]

theorem steps_foldl_insert {p : BuildPlan} {ss : List BuildStep} (h : ((p.steps ++ ss).map Prod.fst).Nodup) :
    (ss.foldl insert p).steps = p.steps ++ ss := by
  induction ss generalizing p with
  | nil => simp
  | cons s ss ih =>
    have hs : s.1 ∉ p.steps.map Prod.fst := by
      intro hmem
      rw [List.map_append, List.nodup_append] at h
      exact h.2.2 _ hmem s.1 (by simp) rfl
    have hp : (p.insert s).steps = p.steps ++ [s] := put_of_notMem hs
    rw [List.foldl_cons, ih (by rw [hp]; simpa using h), hp, List.append_assoc, List.singleton_append]

theorem steps_ofList {ss : List BuildStep} (h : (ss.map Prod.fst).Nodup) : (ofList ss).steps = ss :=
  steps_foldl_insert h

def stepEntry (s : BuildStep) : String × Toml.Value := (s.1, .array (s.2.map .string))

/-- The table of a build plan: an array of strings under each name. -/
def toValue (p : BuildPlan) : Toml.Value := .table (p.steps.map stepEntry)

theorem stepEntry_injective : Function.Injective stepEntry := by
  intro s s' h
  obtain ⟨h₁, h₂⟩ := Prod.mk.inj h
  exact Prod.ext h₁ ((List.map_inj_right fun _ _ => Toml.Value.string.inj).mp (Toml.Value.array.inj h₂))

theorem toValue_injective : Function.Injective toValue := by
  intro p p' h
  have hs := (List.map_inj_right fun _ _ h => stepEntry_injective h).mp (Toml.Value.table.inj h)
  cases p
  cases p'
  simpa using hs

theorem names_map_stepEntry (ss : List BuildStep) : (ss.map stepEntry).map Prod.fst = ss.map Prod.fst := by
  rw [List.map_map]
  rfl

end BuildPlan

namespace Config

open Toml (Value)

/-! ## Reading a value -/

theorem map_eq_ok_iff {α β ε : Type} {f : α → β} {x : Except ε α} {b : β} :
    x.map f = .ok b ↔ ∃ a, x = .ok a ∧ f a = b := by
  cases x <;> simp [Except.map]

theorem mapM_eq_ok_iff {α β ε : Type} {f : α → Except ε β} {g : β → α} (h : ∀ a b, f a = .ok b ↔ a = g b)
    {as : List α} {bs : List β} : as.mapM f = .ok bs ↔ as = bs.map g := by
  induction as generalizing bs with
  | nil => cases bs <;> simp [pure, Except.pure]
  | cons a as ih =>
    simp only [List.mapM_cons, bind_ok_iff, h, ih]
    constructor
    · rintro ⟨b, rfl, bs', rfl, hbs⟩
      cases hbs
      rfl
    · intro he
      obtain ⟨b, bs', rfl, ha, has⟩ := List.map_eq_cons_iff.mp he.symm
      exact ⟨b, ha.symm, bs', has.symm, rfl⟩

theorem text_eq_ok_iff (v : Value) (s : String) : text v = .ok s ↔ v = .string s := by cases v <;> simp [text]

theorem targets_eq_ok_iff (v : Value) (ss : List String) : targets v = .ok ss ↔ v = .array (ss.map .string) := by
  cases v <;> simp [targets, mapM_eq_ok_iff text_eq_ok_iff]

theorem step_eq_ok_iff (e : String × Value) (s : BuildStep) : step e = .ok s ↔ e = BuildPlan.stepEntry s := by
  unfold step
  simp only [map_eq_ok_iff, targets_eq_ok_iff]
  constructor
  · rintro ⟨ss, hss, rfl⟩
    exact Prod.ext rfl hss
  · rintro rfl
    exact ⟨s.2, rfl, rfl⟩

theorem plan_eq_ok_iff {v : Value} (hv : v.Distinct) (p : BuildPlan) : plan v = .ok p ↔ v = p.toValue := by
  cases hv with
  | table hn _ =>
    simp only [plan, map_eq_ok_iff, mapM_eq_ok_iff step_eq_ok_iff, BuildPlan.toValue, Value.table.injEq]
    constructor
    · rintro ⟨ss, rfl, rfl⟩
      rw [BuildPlan.names_map_stepEntry] at hn
      rw [BuildPlan.steps_ofList hn]
    · rintro rfl
      refine ⟨p.steps, rfl, ?_⟩
      have hs := BuildPlan.steps_ofList p.nodup_names
      cases p
      cases h : BuildPlan.ofList _
      simp_all
  | _ => simp [plan, BuildPlan.toValue]

/-! ## Fields -/

inductive Field where
  | bazel
  | defaultProjectName
  | build
  | depsJar
  | annotationProcessorsJar
  | aptGenSrcDir
  deriving DecidableEq, Repr

def Field.key : Field → String
  | .bazel => "bazel"
  | .defaultProjectName => "default_project_name"
  | .build => "build"
  | .depsJar => "deps_jar"
  | .annotationProcessorsJar => "annotation_processors_jar"
  | .aptGenSrcDir => "apt_gen_src_dir"

theorem mem_fieldNames_iff (key : String) : key ∈ fieldNames ↔ ∃ f : Field, key = f.key := by
  constructor
  · intro h
    simp only [fieldNames, List.mem_cons, List.not_mem_nil, or_false] at h
    obtain h | h | h | h | h | h := h
    exacts [⟨.bazel, h⟩, ⟨.defaultProjectName, h⟩, ⟨.build, h⟩, ⟨.depsJar, h⟩, ⟨.annotationProcessorsJar, h⟩,
      ⟨.aptGenSrcDir, h⟩]
  · rintro ⟨f, rfl⟩
    cases f <;> decide

theorem Field.key_injective : Function.Injective Field.key := by
  intro f g
  cases f <;> cases g <;> decide

def value (c : Config) : Field → Value
  | .bazel => .string c.bazel
  | .defaultProjectName => .string c.defaultProjectName
  | .build => c.build.toValue
  | .depsJar => .string c.depsJar
  | .annotationProcessorsJar => .string c.annotationProcessorsJar
  | .aptGenSrcDir => .string c.aptGenSrcDir

theorem ext_value {c c' : Config} (h : ∀ f, c.value f = c'.value f) : c = c' := by
  have hbuild := BuildPlan.toValue_injective (h .build)
  have hb := Value.string.inj (h .bazel)
  have hn := Value.string.inj (h .defaultProjectName)
  have hd := Value.string.inj (h .depsJar)
  have ha := Value.string.inj (h .annotationProcessorsJar)
  have hg := Value.string.inj (h .aptGenSrcDir)
  cases c
  cases c'
  simp_all

/-- Each field can be taken from a configuration of its own. -/
theorem exists_with_fields (cs : Field → Config) : ∃ c : Config, ∀ f, c.value f = (cs f).value f :=
  ⟨{ bazel := (cs .bazel).bazel
     defaultProjectName := (cs .defaultProjectName).defaultProjectName
     build := (cs .build).build
     depsJar := (cs .depsJar).depsJar
     annotationProcessorsJar := (cs .annotationProcessorsJar).annotationProcessorsJar
     aptGenSrcDir := (cs .aptGenSrcDir).aptGenSrcDir }, fun f => by cases f <;> rfl⟩

/-- `put` sets the field and `r` reads the value for it. -/
theorem map_eq_ok_iff_value {α : Type} {r : Except Offence α} {put : α → Config} {toValue : α → Value} {v : Value}
    {c c' : Config} {f : Field} (hr : ∀ a, r = .ok a ↔ v = toValue a) (hput : ∀ a, (put a).value f = toValue a)
    (hother : ∀ a g, g ≠ f → (put a).value g = c.value g) (hc' : ∃ a, c'.value f = toValue a) :
    r.map put = .ok c' ↔ c'.value f = v ∧ ∀ g, g ≠ f → c'.value g = c.value g := by
  rw [map_eq_ok_iff]
  constructor
  · rintro ⟨a, ha, rfl⟩
    exact ⟨by rw [hput, (hr a).mp ha], hother a⟩
  · rintro ⟨rfl, hg⟩
    obtain ⟨a, ha⟩ := hc'
    refine ⟨a, (hr a).mpr ha, ext_value fun g => ?_⟩
    by_cases hgf : g = f
    · rw [hgf, hput, ha]
    · rw [hother a g hgf, hg g hgf]

theorem set_key_eq_ok_iff {c c' : Config} {v : Value} (hv : v.Distinct) (f : Field) : set c (f.key, v) = .ok c' ↔
    c'.value f = v ∧ ∀ g, g ≠ f → c'.value g = c.value g := by
  cases f with
  | build =>
    exact map_eq_ok_iff_value (plan_eq_ok_iff hv) (fun _ => rfl) (fun _ g hg => by cases g <;> trivial) ⟨_, rfl⟩
  | _ =>
    exact map_eq_ok_iff_value (text_eq_ok_iff v) (fun _ => rfl) (fun _ g hg => by cases g <;> trivial) ⟨_, rfl⟩

theorem known_of_set_eq_ok {c c' : Config} {e : String × Value} (h : set c e = .ok c') :
    ∃ f : Field, e.1 = f.key := by
  unfold set at h
  split at h
  · exact ⟨.bazel, ‹_›⟩
  · exact ⟨.defaultProjectName, ‹_›⟩
  · exact ⟨.build, ‹_›⟩
  · exact ⟨.depsJar, ‹_›⟩
  · exact ⟨.annotationProcessorsJar, ‹_›⟩
  · exact ⟨.aptGenSrcDir, ‹_›⟩
  · cases h

/-! ## Tables -/

/-- The fields are those of the table where it has them, and the same as in `start` otherwise. -/
def Overrides (start : Config) (t : List (String × Value)) (c : Config) : Prop :=
  ∀ f, c.value f = (t.lookup (Field.key f)).getD (start.value f)

theorem overrides_nil_iff {start c : Config} : Overrides start [] c ↔ start = c :=
  ⟨fun h => (ext_value h).symm, fun h _ => h ▸ rfl⟩

theorem overrides_cons_iff {start c : Config} {f : Field} {v : Value} {t : List (String × Value)}
    (hf : f.key ∉ t.map Prod.fst) : Overrides start ((f.key, v) :: t) c ↔
      ∃ c₁ : Config, (c₁.value f = v ∧ ∀ g, g ≠ f → c₁.value g = start.value g) ∧ Overrides c₁ t c := by
  have hnone : t.lookup f.key = none := Toml.lookup_eq_none_iff_notMem.mpr hf
  have hlookup (g : Field) : ((f.key, v) :: t).lookup g.key = if g = f then some v else t.lookup g.key := by
    rw [List.lookup_cons]
    by_cases hgf : g = f
    · simp [hgf]
    · simp [hgf, beq_false_of_ne fun hkey => hgf (Field.key_injective hkey)]
  constructor
  · intro h
    obtain ⟨c₁, hc₁⟩ := exists_with_fields fun g => if g = f then c else start
    have hfv : c.value f = v := by simpa [hlookup] using h f
    refine ⟨c₁, ⟨by simpa [hc₁] using hfv, fun g hg => by simp [hc₁, hg]⟩, fun g => ?_⟩
    by_cases hgf : g = f
    · simp [hgf, hnone, hc₁]
    · simpa [hlookup, hgf, hc₁] using h g
  · rintro ⟨c₁, ⟨hfv, hg⟩, h⟩ g
    rw [hlookup]
    by_cases hgf : g = f
    · simpa [hgf, hnone, hfv] using h f
    · simpa [hgf, hg g hgf] using h g

theorem foldlM_set_eq_ok_iff {t : List (String × Value)} (ht : (Value.table t).Distinct) {start c : Config} :
    t.foldlM set start = .ok c ↔ (∀ key ∈ t.map Prod.fst, ∃ f : Field, key = f.key) ∧ Overrides start t c := by
  -- what the first entry sets is the start for the others, which do not have its key
  induction t generalizing start with
  | nil => simp [overrides_nil_iff, pure, Except.pure]
  | cons e t ih =>
    obtain ⟨he, hv, hrest⟩ := ht.of_cons
    obtain ⟨key, v⟩ := e
    simp only [List.foldlM_cons, bind_ok_iff, ih hrest, List.map_cons, List.forall_mem_cons]
    constructor
    · rintro ⟨c₁, hset, hknown, h⟩
      obtain ⟨f, rfl⟩ := known_of_set_eq_ok hset
      exact ⟨⟨⟨f, rfl⟩, hknown⟩, (overrides_cons_iff he).mpr ⟨c₁, (set_key_eq_ok_iff hv f).mp hset, h⟩⟩
    · rintro ⟨⟨⟨f, rfl⟩, hknown⟩, h⟩
      obtain ⟨c₁, hset, h⟩ := (overrides_cons_iff he).mp h
      exact ⟨c₁, (set_key_eq_ok_iff hv f).mpr hset, hknown, h⟩

/-! ## Which tables are configurations -/

/-- A text field takes a string, the build plan a table of arrays of strings. -/
def Field.Takes : Field → Value → Prop
  | .build, v => ∃ es, v = .table es ∧ ∀ e ∈ es, ∃ vs, e.2 = .array vs ∧ ∀ x ∈ vs, ∃ s, x = .string s
  | _, v => ∃ s, v = .string s

theorem takes_value (c : Config) (f : Field) : f.Takes (c.value f) := by
  cases f with
  | build =>
    refine ⟨_, rfl, fun e he => ?_⟩
    obtain ⟨s, _, rfl⟩ := List.mem_map.mp he
    refine ⟨_, rfl, fun x hx => ?_⟩
    obtain ⟨target, _, rfl⟩ := List.mem_map.mp hx
    exact ⟨target, rfl⟩
  | _ => exact ⟨_, rfl⟩

theorem exists_map_stepEntry {es : List (String × Value)}
    (h : ∀ e ∈ es, ∃ vs, e.2 = Value.array vs ∧ ∀ x ∈ vs, ∃ s, x = Value.string s) :
    ∃ ss : List BuildStep, ss.map BuildPlan.stepEntry = es := by
  have hentry : ∀ e ∈ es, e ∈ Set.range BuildPlan.stepEntry := by
    intro e he
    obtain ⟨vs, hvs, hx⟩ := h e he
    have hstrings : vs ∈ Set.range (List.map Value.string) := by
      rw [Set.range_list_map]
      exact fun x hxvs => (hx x hxvs).imp fun _ => Eq.symm
    obtain ⟨targets, rfl⟩ := hstrings
    exact ⟨(e.1, targets), Prod.ext rfl hvs.symm⟩
  have hes : es ∈ Set.range (List.map BuildPlan.stepEntry) := by
    rw [Set.range_list_map]
    exact hentry
  exact hes

theorem exists_value_of_takes {f : Field} {v : Value} (hv : v.Distinct) (h : f.Takes v) :
    ∃ c : Config, c.value f = v := by
  cases f with
  | build =>
    obtain ⟨es, rfl, hes⟩ := h
    obtain ⟨ss, rfl⟩ := exists_map_stepEntry hes
    cases hv with
    | table hn _ => exact ⟨{ default with build := ⟨ss, by rwa [BuildPlan.names_map_stepEntry] at hn⟩ }, rfl⟩
  | bazel => exact h.imp' (fun s => { default with bazel := s }) fun _ => Eq.symm
  | defaultProjectName => exact h.imp' (fun s => { default with defaultProjectName := s }) fun _ => Eq.symm
  | depsJar => exact h.imp' (fun s => { default with depsJar := s }) fun _ => Eq.symm
  | annotationProcessorsJar => exact h.imp' (fun s => { default with annotationProcessorsJar := s }) fun _ => Eq.symm
  | aptGenSrcDir => exact h.imp' (fun s => { default with aptGenSrcDir := s }) fun _ => Eq.symm

/-- The keys are those of fields, and each value is one that its field takes. -/
structure Admissible (t : List (String × Value)) : Prop where
  known : ∀ key ∈ t.map Prod.fst, ∃ f : Field, key = f.key
  takes : ∀ (f : Field) (v : Value), t.lookup f.key = some v → f.Takes v

/-- Each field has the value under its key, or its default. -/
def Describes (t : List (String × Value)) (c : Config) : Prop := Overrides default t c

theorem Describes.takes {t : List (String × Value)} {c : Config} (h : Describes t c) {f : Field} {v : Value}
    (hv : t.lookup f.key = some v) : f.Takes v := by
  have hc := h f
  rw [hv, Option.getD_some] at hc
  exact hc ▸ takes_value c f

theorem exists_describes {t : List (String × Value)} (ht : (Value.table t).Distinct) (h : Admissible t) :
    ∃ c, Describes t c := by
  have hfield (f : Field) : ∃ c : Config, c.value f = (t.lookup f.key).getD (default.value f) := by
    cases hl : t.lookup f.key with
    | none => exact ⟨default, rfl⟩
    | some v => exact exists_value_of_takes (ht.of_lookup hl) (h.takes f v hl)
  choose cs hcs using hfield
  exact (exists_with_fields cs).imp fun c hc f => (hc f).trans (hcs f)

theorem ofTable_eq_ok_iff {t : List (String × Value)} (ht : (Value.table t).Distinct) {c : Config} :
    ofTable t = .ok c ↔ Admissible t ∧ Describes t c := by
  rw [ofTable, foldlM_set_eq_ok_iff ht]
  exact ⟨fun ⟨hk, hd⟩ => ⟨⟨hk, fun _ _ => Describes.takes hd⟩, hd⟩, fun ⟨ha, hd⟩ => ⟨ha.known, hd⟩⟩

/-! ## Files -/

section Files

variable {d : Disk} {path : Path} {content : String} {t : List (String × Value)}

theorem readText_eq_ok_iff : readText d path = .ok content ↔ d.readFile path = .ok (Utf8.encode content) := by
  rw [readText, bind_ok_iff]
  constructor
  · rintro ⟨bytes, hbytes, hdecode⟩
    split at hdecode
    · next s hs =>
      cases hdecode
      rw [hbytes, Utf8.decode?_eq_some_iff.mp hs]
    · cases hdecode
  · intro h
    exact ⟨_, h, by rw [Utf8.decode?_eq_some_iff.mpr rfl]; rfl⟩

theorem ofFile_eq_ofText (h : d.readFile path = .ok (Utf8.encode content)) : ofFile d path = ofText path content := by
  rw [ofFile, readText_eq_ok_iff.mpr h]

theorem ofText_eq_malformed_iff : ofText path content = .error (.malformed path) ↔ Toml.parse content = none := by
  unfold ofText
  cases Toml.parse content with
  | none => simp
  | some t => cases h : ofTable t <;> simp [h]

theorem ofText_ne_file (e : FileError) : ofText path content ≠ .error (.file e) := by
  unfold ofText
  cases Toml.parse content with
  | none => simp
  | some t => cases h : ofTable t <;> simp [h]

theorem ofText_eq_ok_iff (ht : Toml.parse content = some t) {c : Config} :
    ofText path content = .ok c ↔ Admissible t ∧ Describes t c := by
  rw [← ofTable_eq_ok_iff (Toml.distinct_of_parse ht), ofText, ht]
  cases h : ofTable t <;> simp [h]

theorem ofFile_eq_file_iff : (∃ e, ofFile d path = .error (.file e)) ↔ (∃ cause, d.readFile path = .error cause) ∨
    ∃ bytes, d.readFile path = .ok bytes ∧ ∀ content : String, bytes ≠ Utf8.encode content := by
  cases hr : d.readFile path with
  | error cause => simp [ofFile, readText, hr, bind, Except.bind]
  | ok bytes =>
    by_cases h : ∃ content : String, bytes = Utf8.encode content
    · obtain ⟨content, rfl⟩ := h
      simp only [ofFile_eq_ofText hr, ofText_ne_file]
      simp
    · have hnone : Utf8.decode? bytes = none :=
        Option.eq_none_iff_forall_ne_some.mpr fun content hc => h ⟨content, Utf8.decode?_eq_some_iff.mp hc⟩
      simp [ofFile, readText, hr, bind, Except.bind, hnone, throw, throwThe, MonadExceptOf.throw, not_exists.mp h]

end Files

/-! ## Loading -/

/-- What is read from the file at a path, and that nothing but the log tells that it was read. -/
structure Meaning (s : Session) (path : Path) (o : Except Error Config × Session) : Prop where
  only_logs : o.2 = { s with log := s.log ++ [.loading path] }
  unread : (∃ e, o.1 = .error (.file e)) ↔ (∃ cause, s.disk.readFile path = .error cause) ∨
    ∃ bytes, s.disk.readFile path = .ok bytes ∧ ∀ content : String, bytes ≠ Utf8.encode content
  malformed : ∀ content : String, s.disk.readFile path = .ok (Utf8.encode content) →
    (o.1 = .error (.malformed path) ↔ Toml.parse content = none)
  accepted : ∀ (content : String) (t : List (String × Value)), s.disk.readFile path = .ok (Utf8.encode content) →
    Toml.parse content = some t → ((∃ c, o.1 = .ok c) ↔ Admissible t)
  described : ∀ (content : String) (t : List (String × Value)), s.disk.readFile path = .ok (Utf8.encode content) →
    Toml.parse content = some t → Admissible t → ∀ c, o.1 = .ok c ↔ Describes t c

theorem meaning_ofFile (s : Session) (path : Path) :
    Meaning s path (ofFile s.disk path, { s with log := s.log ++ [.loading path] }) where
  only_logs := rfl
  unread := ofFile_eq_file_iff
  malformed content h := by rw [ofFile_eq_ofText h, ofText_eq_malformed_iff]
  accepted content t h ht := by
    simp only [ofFile_eq_ofText h, ofText_eq_ok_iff ht]
    constructor
    · rintro ⟨_, ha, _⟩
      exact ha
    · intro ha
      obtain ⟨c, hc⟩ := exists_describes (Toml.distinct_of_parse ht) ha
      exact ⟨c, ha, hc⟩
  described content t h ht ha c := by
    simp only [ofFile_eq_ofText h, ofText_eq_ok_iff ht]
    exact and_iff_right ha

theorem isFile_iff {d : Disk} {p : Path} :
    d.isFile p = true ↔ ∃ contents executable, d.find? p = some (.file contents executable) := by
  unfold Disk.isFile
  cases h : d.find? p with
  | none => simp
  | some e => cases e <;> simp [Entry.isDirectory]

theorem load_some (path dir : Path) (s : Session) :
    (load (some path) dir).on s = (ofFile s.disk path, { s with log := s.log ++ [.loading path] }) := by
  simp [load]

def candidate (dir : Path) : Path := dir.join (.ofString fileName)

theorem load_none_of_isFile {dir : Path} {s : Session} (h : s.disk.isFile (candidate dir) = true) :
    (load none dir).on s =
      (ofFile s.disk (candidate dir), { s with log := s.log ++ [.loading (candidate dir)] }) := by
  rw [candidate] at h ⊢
  simp [load, h]

theorem load_none_of_not_isFile {dir : Path} {s : Session} (h : s.disk.isFile (candidate dir) = false) :
    (load none dir).on s = (.ok default, { s with log := s.log ++ [.usingDefaults (candidate dir)] }) := by
  rw [candidate] at h ⊢
  simp [load, h, Except.map]

/-- **What is loaded.** Of a path that is given nothing counts but what is read there. Without one the file in the
directory is read if it is a regular file, and otherwise the defaults hold. -/
theorem load_means (s : Session) (dir : Path) :
    (∀ path, Meaning s path ((load (some path) dir).on s) ∧
      ∀ (s' : Session) (dir' : Path), s'.disk.readFile path = s.disk.readFile path →
        ((load (some path) dir').on s').1 = ((load (some path) dir).on s).1) ∧
    ((∃ contents executable, s.disk.find? (candidate dir) = some (.file contents executable)) →
      Meaning s (candidate dir) ((load none dir).on s)) ∧
    ((¬ ∃ contents executable, s.disk.find? (candidate dir) = some (.file contents executable)) →
      (load none dir).on s = (.ok default, { s with log := s.log ++ [.usingDefaults (candidate dir)] })) := by
  refine ⟨fun path => ⟨?_, fun s' dir' h => ?_⟩, fun h => ?_, fun h => ?_⟩
  · rw [load_some]
    exact meaning_ofFile s path
  · rw [load_some, load_some]
    simp only [ofFile, readText, h]
  · rw [load_none_of_isFile (isFile_iff.mpr h)]
    exact meaning_ofFile s (candidate dir)
  · exact load_none_of_not_isFile (Bool.eq_false_iff.mpr fun h' => h (isFile_iff.mp h'))

end Config

end EclipseProject
