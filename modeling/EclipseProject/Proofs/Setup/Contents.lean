import EclipseProject.Proofs.Document.Naming
import EclipseProject.Proofs.Setup.Leftovers
import EclipseProject.Proofs.Text.Utf8

/-!
# What reaches the files

Of all that a run is given and told, four texts reach the files, each of them one file, and one file is always the
same. The texts can be read off the files again, so two runs stage the same files exactly if they agree on the four.
-/

namespace EclipseProject

/-! ## What the documents tell of their inputs -/

theorem Classpath.ofProject_inj {g j g' j' : String} :
    ofProject g j = ofProject g' j' ↔ g ++ "/" ++ j = g' ++ "/" ++ j' := by
  constructor
  · intro h
    rw [ofProject, ofProject, document_eq_write, document_eq_write] at h
    have hentries := layout.write_injective h
    simpa [projectEntries] using hentries
  · intro h
    rw [ofProject, ofProject, projectEntries, projectEntries, h]

theorem Preferences.annotationProcessing_inj {dir dir' : String} :
    annotationProcessing dir = annotationProcessing dir' ↔ dir = dir' := by
  constructor
  · intro h
    have hlist := congrArg String.toList h
    simpa [annotationProcessing, document, String.toList_intercalate, String.toList_inj] using hlist
  · rintro rfl
    rfl

theorem Path.exists_join_ofString (s t : String) : ∃ u, (ofString s).join (.ofString t) = .ofString u := by
  have hslash : Utf8.encode "/" = [slash] := by decide
  unfold join
  split
  · exact ⟨t, rfl⟩
  split
  · exact ⟨s ++ t, by simp [ofString, Utf8.encode_append]⟩
  · exact ⟨s ++ "/" ++ t, by simp [ofString, Utf8.encode_append, hslash]⟩

theorem Path.display_ofString (s : String) : (ofString s).display = s := Utf8.decode_encode s

theorem Factorypath.ofProject_inj {s t s' t' : String} :
    ofProject ((Path.ofString s).join (.ofString t)) = ofProject ((Path.ofString s').join (.ofString t')) ↔
      ((Path.ofString s).join (.ofString t)).bytes = ((Path.ofString s').join (.ofString t')).bytes := by
  obtain ⟨u, hu⟩ := Path.exists_join_ofString s t
  obtain ⟨u', hu'⟩ := Path.exists_join_ofString s' t'
  rw [hu, hu']
  constructor
  · intro h
    rw [ofProject, ofProject, document_eq_write, document_eq_write] at h
    have hentries := layout.write_injective h
    have hdisplay : u = u' := by simpa [projectEntries, Path.display_ofString] using hentries
    rw [hdisplay]
  · intro h
    rw [Utf8.encode_injective h]

/-! ## Looking up what was staged -/

/-- What a staged file holds. -/
def Staging.Record.content? (r : Record) (p : Path) : Option String := (r.get? p).bind Entry.content

namespace Setup

variable {b b' : Bazel} {c c' : Config} {o o' : Options} {g g' : Progress} {s s' : Session} {d d' : Disk}
  {st : Step} {q : Query}

theorem same_path_iff (i j : Item) : i.path.same j.path = true ↔ i = j := by
  have hall : ∀ i ∈ Item.all, ∀ j ∈ Item.all, i.path.same j.path = true ↔ i = j := by decide +kernel
  exact hall i (by cases i <;> simp [Item.all]) j (by cases j <;> simp [Item.all])

theorem find?_map_entry {is : List Item} {i : Item} (hi : i ∈ is) (a : Answers) :
    (is.map (Item.entry c o a)).find? (·.destination.same i.path) = some (i.entry c o a) := by
  induction is with
  | nil => cases hi
  | cons j is ih =>
    rw [List.map_cons, List.find?_cons]
    by_cases hj : j = i
    · have hsame : (j.entry c o a).destination.same i.path = true := (same_path_iff j i).mpr hj
      rw [hsame, hj]
    · have hsame : (j.entry c o a).destination.same i.path = false :=
        Bool.eq_false_iff.mpr fun h => hj ((same_path_iff j i).mp h)
      rw [hsame]
      exact ih ((List.mem_cons.mp hi).resolve_left (Ne.symm hj))

/-! ## What is asked is answered -/

theorem isSome_answers_of_perform (h : (perform b c o g st).on s = (.ok g', s'))
    (hq : st = .ask q ∨ (g.answers q).isSome = true) : (g'.answers q).isSome = true := by
  by_cases hst : st = .ask q
  · subst hst
    obtain ⟨v, rfl, _⟩ := answer_of_perform h
    simp [Progress.learn, Answers.learn]
  · rw [(progress_of_perform h).1 q hst]
    exact hq.resolve_left hst

theorem isSome_answers_follow {sts : List Step} (hok : (follow b c o sts g s).failure = none)
    (hq : .ask q ∈ sts ∨ (g.answers q).isSome = true) : ((follow b c o sts g s).progress.answers q).isSome = true := by
  induction sts generalizing g s with
  | nil => exact hq.resolve_left (by simp)
  | cons st sts ih =>
    cases h : (perform b c o g st).on s with
    | mk r s' =>
      cases r with
      | error e =>
        rw [follow_cons_error h] at hok
        cases hok
      | ok g' =>
        rw [follow_cons_ok h] at hok ⊢
        refine ih hok ?_
        obtain hmem | hsome := hq
        · obtain rfl | hmem := List.mem_cons.mp hmem
          · exact Or.inr (isSome_answers_of_perform h (Or.inl rfl))
          · exact Or.inl hmem
        · exact Or.inr (isSome_answers_of_perform h (Or.inr hsome))

theorem ask_mem_script (c : Config) (o : Options) (q : Query) : .ask q ∈ script c o := by
  refine List.mem_append_right _ ?_
  cases q <;> simp [steps]

/-- A run that succeeds knows all answers, and stages what it generates from them. -/
theorem contents_of_success {w : Workspace} (h : (run b c o).on (.ofDisk d) = (.ok w, s)) :
    (∀ q, (answersIn s.log q).isSome = true) ∧
      ∀ i : Item, w.staged.content? i.path = i.content c o (answersIn s.log) := by
  rw [on_run] at h
  obtain ⟨hresult, rfl⟩ := Prod.mk.inj h
  obtain ⟨hok, rfl⟩ := failure_of_ok hresult
  rw [← answers_trail]
  refine ⟨fun q => isSome_answers_follow hok (Or.inl (ask_mem_script c o q)), fun i => ?_⟩
  have hstaged := staged_trail b c o (.ofDisk d) hok
  simp only [Staging.Record.content?, Staging.Record.get?, Progress.workspace, hstaged, find?_map_entry (mem_all i),
    Option.bind_some]
  rfl

/-! ## Two runs -/

/-- What reaches the files: where the dependencies lie, the name, where the processors lie, byte by byte, and where
generated sources go. -/
structure Inputs where
  library : String
  name : String
  processors : List UInt8
  generated : String
  deriving DecidableEq, Repr

def inputs (c : Config) (o : Options) (genfiles bin : String) : Inputs where
  library := genfiles ++ "/" ++ c.depsJar
  name := projectName c o
  processors := ((Path.ofString bin).join (.ofString c.annotationProcessorsJar)).bytes
  generated := c.aptGenSrcDir

def files : List Path :=
  [classpathFile, projectFile, factorypathFile, compilerPreferencesFile, processingPreferencesFile]

/-- How the contents of the files of two runs tell of their inputs. -/
structure Reflects (content content' : Path → Option String) (x y : Inputs) : Prop where
  staged : ∀ p ∈ files, (content p).isSome = true ∧ (content' p).isSome = true
  all : (∀ p ∈ files, content p = content' p) ↔ x = y
  classpath : content classpathFile = content' classpathFile ↔ x.library = y.library
  description : content projectFile = content' projectFile ↔ x.name = y.name
  factorypath : content factorypathFile = content' factorypathFile ↔ x.processors = y.processors
  compilerPreferences : content compilerPreferencesFile = content' compilerPreferencesFile
  processingPreferences :
    content processingPreferencesFile = content' processingPreferencesFile ↔ x.generated = y.generated

theorem reflects_of_contents {content content' : Path → Option String} {a a' : Answers}
    {genfiles bin genfiles' bin' : String}
    (hc : ∀ i : Item, content i.path = i.content c o a) (hc' : ∀ i : Item, content' i.path = i.content c' o' a')
    (hg : a .genfiles = some genfiles) (hb : a .bin = some bin) (hg' : a' .genfiles = some genfiles')
    (hb' : a' .bin = some bin') :
    Reflects content content' (inputs c o genfiles bin) (inputs c' o' genfiles' bin') := by
  have classpath : content classpathFile = content' classpathFile ↔
      genfiles ++ "/" ++ c.depsJar = genfiles' ++ "/" ++ c'.depsJar := by
    have h₁ := hc .classpath
    have h₂ := hc' .classpath
    simp only [Item.path, Item.content, Answers.get, hg, hg', Option.getD_some] at h₁ h₂
    rw [h₁, h₂, Option.some_inj, Classpath.ofProject_inj]
  have description : content projectFile = content' projectFile ↔ projectName c o = projectName c' o' := by
    have h₁ := hc .description
    have h₂ := hc' .description
    simp only [Item.path, Item.content] at h₁ h₂
    rw [h₁, h₂, Option.some_inj, Description.document_inj]
  have factorypath : content factorypathFile = content' factorypathFile ↔
      ((Path.ofString bin).join (.ofString c.annotationProcessorsJar)).bytes =
        ((Path.ofString bin').join (.ofString c'.annotationProcessorsJar)).bytes := by
    have h₁ := hc .factorypath
    have h₂ := hc' .factorypath
    simp only [Item.path, Item.content, Answers.get, hb, hb', Option.getD_some] at h₁ h₂
    rw [h₁, h₂, Option.some_inj, Factorypath.ofProject_inj]
  have compilerPreferences : content compilerPreferencesFile = content' compilerPreferencesFile :=
    (hc .compilerPreferences).trans (hc' .compilerPreferences).symm
  have processingPreferences : content processingPreferencesFile = content' processingPreferencesFile ↔
      c.aptGenSrcDir = c'.aptGenSrcDir := by
    have h₁ := hc .processingPreferences
    have h₂ := hc' .processingPreferences
    simp only [Item.path, Item.content] at h₁ h₂
    rw [h₁, h₂, Option.some_inj, Preferences.annotationProcessing_inj]
  refine { staged := ?_, all := ?_, classpath, description, factorypath, compilerPreferences, processingPreferences }
  · intro p hp
    simp only [files, List.mem_cons, List.not_mem_nil, or_false] at hp
    rcases hp with rfl | rfl | rfl | rfl | rfl
    · exact ⟨hc .classpath ▸ rfl, hc' .classpath ▸ rfl⟩
    · exact ⟨hc .description ▸ rfl, hc' .description ▸ rfl⟩
    · exact ⟨hc .factorypath ▸ rfl, hc' .factorypath ▸ rfl⟩
    · exact ⟨hc .compilerPreferences ▸ rfl, hc' .compilerPreferences ▸ rfl⟩
    · exact ⟨hc .processingPreferences ▸ rfl, hc' .processingPreferences ▸ rfl⟩
  · simp only [files, List.forall_mem_cons, List.not_mem_nil, false_implies, implies_true, and_true, classpath,
      description, factorypath, compilerPreferences, processingPreferences, inputs, Inputs.mk.injEq, true_and]

/-- **Four inputs reach the files, and all of them do.** Two runs that succeed, dry or real, of whatever bazel on
whatever disk, stage the same files exactly if they agree on the four, and each file tells of its own one only. -/
theorem contents_eq_iff {w w' : Workspace} (h : (run b c o).on (.ofDisk d) = (.ok w, s))
    (h' : (run b' c' o').on (.ofDisk d') = (.ok w', s')) :
    ∃ genfiles bin genfiles' bin',
      answersIn s.log .genfiles = some genfiles ∧ answersIn s.log .bin = some bin ∧
      answersIn s'.log .genfiles = some genfiles' ∧ answersIn s'.log .bin = some bin' ∧
      Reflects w.staged.content? w'.staged.content? (inputs c o genfiles bin) (inputs c' o' genfiles' bin') := by
  obtain ⟨hanswers, hcontents⟩ := contents_of_success h
  obtain ⟨hanswers', hcontents'⟩ := contents_of_success h'
  obtain ⟨genfiles, hg⟩ := Option.isSome_iff_exists.mp (hanswers .genfiles)
  obtain ⟨bin, hb⟩ := Option.isSome_iff_exists.mp (hanswers .bin)
  obtain ⟨genfiles', hg'⟩ := Option.isSome_iff_exists.mp (hanswers' .genfiles)
  obtain ⟨bin', hb'⟩ := Option.isSome_iff_exists.mp (hanswers' .bin)
  exact ⟨genfiles, bin, genfiles', bin', hg, hb, hg', hb', reflects_of_contents hcontents hcontents' hg hb hg' hb'⟩

/-- A dry run and a real one of different parts that come to the same four inputs stage the same files. -/
theorem contents_eq_of_other_parts :
    let t : Bazel.AnswerTable := ⟨[("workspace", .ok (Utf8.encode "/ws\n")), ("bazel-genfiles", .ok (Utf8.encode "/g\n")),
      ("bazel-bin", .ok (Utf8.encode "/b\n"))], [], []⟩
    let u : Bazel.AnswerTable := ⟨[("workspace", .ok (Utf8.encode "/\n")), ("bazel-genfiles", .ok (Utf8.encode "/g/a\n")),
      ("bazel-bin", .ok (Utf8.encode "/x\n"))], [], []⟩
    let c : Config := { Config.default with depsJar := "a/deps.jar", annotationProcessorsJar := "/p.jar" }
    let c' : Config := { Config.default with depsJar := "deps.jar", annotationProcessorsJar := "/p.jar" }
    let dry := trail ⟨"bazel", t.runner⟩ c (dryly (some "domain-registry")) (.ofDisk .empty)
    let real := trail ⟨"bazelisk", u.runner⟩ c' (really none) (.ofDisk .empty)
    let w := dry.progress.workspace (dryly (some "domain-registry"))
    let w' := real.progress.workspace (really none)
    (run ⟨"bazel", t.runner⟩ c (dryly (some "domain-registry"))).on (.ofDisk .empty) = (.ok w, dry.session) ∧
      (run ⟨"bazelisk", u.runner⟩ c' (really none)).on (.ofDisk .empty) = (.ok w', real.session) ∧
      w.root ≠ w'.root ∧ ∀ p ∈ files, w.staged.content? p = w'.staged.content? p := by
  intro t u c c' dry real w w'
  have hdry : dry.failure.isNone = true := by
    simp only [dry, c, t]
    decide +kernel
  have hreal : real.failure.isNone = true := by
    simp only [real, c', u]
    decide +kernel
  have h : (run ⟨"bazel", t.runner⟩ c (dryly (some "domain-registry"))).on (.ofDisk .empty) = (.ok w, dry.session) :=
    (on_run ..).trans (congrArg (·, dry.session) (result_of_none (Option.isNone_iff_eq_none.mp hdry)))
  have h' : (run ⟨"bazelisk", u.runner⟩ c' (really none)).on (.ofDisk .empty) = (.ok w', real.session) :=
    (on_run ..).trans (congrArg (·, real.session) (result_of_none (Option.isNone_iff_eq_none.mp hreal)))
  have hroots : w.root ≠ w'.root := by
    simp only [w, w', dry, real, c, c', t, u]
    decide +kernel
  obtain ⟨genfiles, bin, genfiles', bin', hg, hb, hg', hb', hreflects⟩ := contents_eq_iff h h'
  have hlog : answersIn dry.session.log .genfiles = some "/g" ∧ answersIn dry.session.log .bin = some "/b" := by
    simp only [dry, c, t]
    decide +kernel
  have hlog' : answersIn real.session.log .genfiles = some "/g/a" ∧ answersIn real.session.log .bin = some "/x" := by
    simp only [real, c', u]
    decide +kernel
  obtain rfl : genfiles = "/g" := Option.some.inj (hg.symm.trans hlog.1)
  obtain rfl : bin = "/b" := Option.some.inj (hb.symm.trans hlog.2)
  obtain rfl : genfiles' = "/g/a" := Option.some.inj (hg'.symm.trans hlog'.1)
  obtain rfl : bin' = "/x" := Option.some.inj (hb'.symm.trans hlog'.2)
  exact ⟨h, h', hroots, hreflects.all.mpr (by decide +kernel)⟩

end Setup

end EclipseProject
