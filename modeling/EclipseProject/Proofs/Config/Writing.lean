import EclipseProject.Proofs.Config.Meaning
import EclipseProject.Proofs.Toml.Writing
import Mathlib.Data.List.Nodup

/-!
# Every configuration can be written down

A configuration is written with a line for each text field. Its build plan follows as a table under a header, as a
table within a line, or with a dotted key for each step. Whatever the fields, the names of the steps and the targets
are, the file is read as the same configuration.
-/

namespace EclipseProject

open Toml

theorem forall₂_map_map {α β γ : Type} {r : β → γ → Prop} {f : α → β} {g : α → γ} {l : List α}
    (h : ∀ a ∈ l, r (f a) (g a)) : List.Forall₂ r (l.map f) (l.map g) :=
  List.forall₂_map_left_iff.mpr (List.forall₂_map_right_iff.mpr (List.forall₂_same.mpr h))

/-! ## Build plans -/

namespace BuildPlan

inductive Form where
  | headed
  | inline
  | dotted
  deriving DecidableEq, Repr

def stepText (s : BuildStep) : List Char := Toml.entry (quoted s.1) (array s.2)

def dottedText (s : BuildStep) : List Char := Toml.entry ("build".toList ++ '.' :: quoted s.1) (array s.2)

def lines (p : BuildPlan) : Form → List (List Char)
  | .headed => headerLine "build" :: p.steps.map stepText
  | .inline => [Toml.entry "build".toList (braces (p.steps.map stepText))]
  | .dotted => p.steps.map dottedText

def entries (p : BuildPlan) : List (String × Value) := p.steps.map stepEntry

def items (p : BuildPlan) : Form → List Item
  | .headed => .table ⟨[], "build"⟩ :: (Entries.plain p.entries).map pairItem
  | .inline => (Entries.plain [("build", p.toValue)]).map pairItem
  | .dotted => (Entries.under "build" p.entries).map pairItem

def node (p : BuildPlan) : Form → Node
  | .headed => .table .declared (Entries.leaves p.entries)
  | .inline => .leaf p.toValue
  | .dotted => .table .dotted (Entries.leaves p.entries)

theorem isBare_build : IsBare "build" := by decide

theorem isPair_stepText (n : Nat) (s : BuildStep) :
    IsPair (n + 1) (stepText s) (⟨[], s.1⟩, .array (s.2.map .string)) :=
  isPair_entry (isKey_quoted s.1) (isValue_array n s.2)

example : stepText ("a.\"b\"", ["//c:d", "\t"]) = "\"a.\\\"b\\\"\" = [\"//c:d\", \"\\u0009\"]".toList := by decide +kernel

theorem isPair_dottedText (n : Nat) (s : BuildStep) :
    IsPair (n + 1) (dottedText s) (⟨["build"], s.1⟩, .array (s.2.map .string)) :=
  isPair_entry (isKey_dotted isBare_build s.1) (isValue_array n s.2)

theorem nodup_entries (p : BuildPlan) : (p.entries.map Prod.fst).Nodup := by
  rw [entries, names_map_stepEntry]
  exact p.nodup_names

theorem toValue_node (p : BuildPlan) (form : Form) : (p.node form).toValue = p.toValue := by
  cases form <;> rw [node, Node.toValue]
  · rw [Entries.entriesToValues_leaves]
    rfl
  · rw [Entries.entriesToValues_leaves]
    rfl

theorem isValue_braces_steps (n : Nat) (p : BuildPlan) :
    IsValue (n + 2) (braces (p.steps.map stepText)) p.toValue := by
  have hpairs : List.Forall₂ (IsPair (n + 1)) (p.steps.map stepText) (Entries.plain p.entries) := by
    rw [Entries.plain, entries, List.map_map]
    exact forall₂_map_map fun s _ => isPair_stepText n s
  have h := isValue_braces hpairs (Entries.insertAll_nil_plain p.nodup_entries)
  rwa [Entries.entriesToValues_leaves] at h

theorem isLine_lines (p : BuildPlan) (form : Form) : List.Forall₂ IsLine (p.lines form) (p.items form) := by
  cases form with
  | headed =>
    refine .cons (isLine_header isBare_build) ?_
    rw [Entries.plain, entries, List.map_map, List.map_map]
    exact forall₂_map_map fun s _ => isLine_pair (isPair_stepText _ s)
  | inline => exact .cons (isLine_pair (isPair_entry (isKey_bare isBare_build) (isValue_braces_steps _ p))) .nil
  | dotted =>
    rw [items, Entries.under, entries, List.map_map, List.map_map]
    exact forall₂_map_map fun s _ => isLine_pair (isPair_dottedText _ s)

theorem ofItems_items (p : BuildPlan) {form : Form} (hform : form = .dotted → p.steps ≠ [])
    {es : List (String × Value)} (h : (es.map Prod.fst).Nodup) (hbuild : "build" ∉ es.map Prod.fst) :
    ofItems ((Entries.plain es).map pairItem ++ p.items form) =
      some (Entries.leaves es ++ [("build", p.node form)]) := by
  have hplain := Entries.insertAll_nil_plain h
  have hkeys : (Entries.leaves es).map Prod.fst = es.map Prod.fst := by
    rw [Entries.leaves, List.map_map]
    rfl
  have hnew : "build" ∉ (Entries.leaves es).map Prod.fst := by rwa [hkeys]
  cases form with
  | headed =>
    rw [items, ofItems_header, hplain, Option.bind_some]
    exact Entries.declare_plain hnew p.nodup_entries
  | inline =>
    rw [items, ← List.map_append, ofItems_pairs, Entries.insertAll_append, hplain, Option.bind_some]
    refine Entries.insertAll_plain ?_
    rw [hkeys, List.map_singleton, ← List.concat_eq_append]
    exact List.Nodup.concat hbuild h
  | dotted =>
    rw [items, ← List.map_append, ofItems_pairs, Entries.insertAll_append, hplain, Option.bind_some]
    exact Entries.insertAll_under hnew (by simpa [entries] using hform rfl) p.nodup_entries

end BuildPlan

/-! ## Configurations -/

namespace Config

def textFields (c : Config) : List (String × String) :=
  [("bazel", c.bazel), ("default_project_name", c.defaultProjectName), ("deps_jar", c.depsJar),
    ("annotation_processors_jar", c.annotationProcessorsJar), ("apt_gen_src_dir", c.aptGenSrcDir)]

def fieldText (e : String × String) : List Char := Toml.entry e.1.toList (quoted e.2)

def write (c : Config) (form : BuildPlan.Form) : String :=
  .ofList (unlines (c.textFields.map fieldText ++ c.build.lines form))

def entries (c : Config) : List (String × Value) := c.textFields.map fun e => (e.1, .string e.2)

def keys : List String :=
  ["bazel", "default_project_name", "deps_jar", "annotation_processors_jar", "apt_gen_src_dir"]

theorem keys_entries (c : Config) : c.entries.map Prod.fst = keys := rfl

theorem isLine_fieldText (e : String × String) (h : IsBare e.1) :
    IsLine (fieldText e) (.pair ⟨[], e.1⟩ (.string e.2)) :=
  isLine_pair (isPair_entry (isKey_bare h) (isValue_quoted _ e.2))

theorem isBare_of_mem_keys : ∀ key ∈ keys, IsBare key := by decide

theorem isLine_textFields (c : Config) :
    List.Forall₂ IsLine (c.textFields.map fieldText) ((Entries.plain c.entries).map pairItem) := by
  rw [Entries.plain, entries, List.map_map, List.map_map]
  exact forall₂_map_map fun e he => isLine_fieldText e (isBare_of_mem_keys e.1 (List.mem_map_of_mem he))

theorem items_write (c : Config) (form : BuildPlan.Form) :
    Toml.items (c.write form).toList = some ((Entries.plain c.entries).map pairItem ++ c.build.items form) := by
  rw [write, String.toList_ofList]
  exact items_unlines (List.rel_append c.isLine_textFields (c.build.isLine_lines form))

theorem parse_write (c : Config) {form : BuildPlan.Form} (hform : form = .dotted → c.build.steps ≠ []) :
    Toml.parse (c.write form) = some (c.entries ++ [("build", c.build.toValue)]) := by
  have hkeys := c.keys_entries
  rw [Toml.parse, items_write, Option.bind_some,
    c.build.ofItems_items hform (by rw [hkeys]; decide) (by rw [hkeys]; decide), Option.map_some,
    entriesToValues_eq_map, List.map_append, ← entriesToValues_eq_map, Entries.entriesToValues_leaves,
    List.map_singleton, BuildPlan.toValue_node]

theorem ofTable_entries (c : Config)
    (h : (Value.table (c.entries ++ [("build", c.build.toValue)])).Distinct) :
    ofTable (c.entries ++ [("build", c.build.toValue)]) = .ok c := by
  have hknown : ∀ key ∈ keys ++ ["build"], key ∈ fieldNames := by decide
  refine (foldlM_set_eq_ok_iff h).mpr ⟨fun key hkey => (mem_fieldNames_iff key).mp (hknown key ?_), fun f => ?_⟩
  · rwa [List.map_append, keys_entries] at hkey
  · cases f <;> rfl

/-- **Every configuration can be written.** Without steps there is nothing to write with dotted keys, and the default
build plan would hold. -/
theorem ofFile_write {d : Disk} {path : Path} (c : Config) (form : BuildPlan.Form)
    (hform : form = .dotted → c.build.steps ≠ []) (h : d.readFile path = .ok (Utf8.encode (c.write form))) :
    ofFile d path = .ok c := by
  have hparse := c.parse_write hform
  rw [ofFile_eq_ofText h, ofText, hparse]
  show (ofTable _).mapError _ = _
  rw [c.ofTable_entries (distinct_of_parse hparse)]
  rfl

theorem ofFile_write_default :
    ofFile (Disk.empty.put [[0x63]] (.file (Utf8.encode (default.write .dotted)) false)) ⟨[0x63]⟩ = .ok default := by
  have hread (bytes : List UInt8) : (Disk.empty.put [[0x63]] (.file bytes false)).readFile ⟨[0x63]⟩ = .ok bytes := by
    rfl
  exact ofFile_write default .dotted (fun _ => by decide) (hread _)

end Config

end EclipseProject
