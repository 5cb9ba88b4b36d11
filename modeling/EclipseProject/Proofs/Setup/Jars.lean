import EclipseProject.Proofs.Path.Sameness
import EclipseProject.Proofs.Setup.Answers

/-!
# Where the jars lie

The jar of the dependencies is spelled behind the answer of bazel and a slash, the jar of the processors is joined to
the answer as a path. For a relative jar these are two spellings of one path. An absolute jar replaces what it is joined
to, but comes to lie below what it is spelled behind.
-/

namespace EclipseProject

namespace Path

variable {base p : Path}

/-! ## A slash in between -/

/-- The path spelled behind the other and a slash. -/
def behind (base p : Path) : Path := ⟨base.bytes ++ slash :: p.bytes⟩

theorem lead_behind (hbase : base.bytes ≠ []) (p : Path) : (base.behind p).lead = base.lead := by
  obtain ⟨b, bytes, hb⟩ := List.exists_cons_of_ne_nil hbase
  have habsolute : (base.behind p).isAbsolute = base.isAbsolute := by simp [isAbsolute, behind, hb]
  have hsegments : (base.behind p).segments.head? = base.segments.head? := head?_split_append ..
  unfold lead
  rw [habsolute, hsegments]

theorem components_behind (hbase : base.bytes ≠ []) (p : Path) :
    (base.behind p).components = base.components ++ (undotted p.pieces).map componentOf := by
  have hpieces : (base.behind p).pieces = base.pieces ++ p.pieces := by
    simp [pieces, segments, behind, split_append_slash]
  rw [components_eq, components_eq base, lead_behind hbase, hpieces, undotted_append, List.map_append,
    List.append_assoc]

theorem same_behind_of_relative (hbase : base.bytes ≠ []) (hp : p.isAbsolute = false) :
    (base.behind p).same (base.join p) = true := by
  by_cases hslash : base.endsInSlash = true
  · obtain ⟨before, hb⟩ := exists_of_endsInSlash hslash
    have hbehind : base.behind p = ⟨before ++ slash :: slash :: p.bytes⟩ := by simp [behind, hb]
    have hjoin : base.join p = ⟨before ++ slash :: p.bytes⟩ := by simp [join, hp, hslash, hb]
    rw [hbehind, hjoin]
    exact same_of_respelt (.slashes before p.bytes)
  · have hjoin : base.join p = base.behind p := by simp [join, hp, hbase, hslash, behind]
    rw [hjoin]
    exact same_eq_true_iff.mpr rfl

/-- An absolute path keeps its place only behind the root. -/
theorem same_behind_of_absolute (hbase : base.bytes ≠ []) (hp : p.isAbsolute = true) :
    (base.behind p).same (base.join p) = true ↔ base.components = [.root] := by
  have hjoin : base.join p = p := by simp [join, hp]
  have hcomponents : p.components = [.root] ++ (undotted p.pieces).map componentOf := by
    rw [components_eq, lead, if_pos hp]
  rw [same_eq_true_iff, hjoin, components_behind hbase, hcomponents]
  exact List.append_left_inj _

theorem same_behind_iff (hbase : base.bytes ≠ []) (p : Path) :
    (base.behind p).same (base.join p) = true ↔ p.isAbsolute = false ∨ base.components = [.root] := by
  cases hp : p.isAbsolute with
  | false => simp [same_behind_of_relative hbase hp]
  | true => simp [same_behind_of_absolute hbase hp]

theorem behind_eq_join_iff (hbase : base.bytes ≠ []) (p : Path) :
    base.behind p = base.join p ↔ base.endsInSlash = false ∧ p.isAbsolute = false := by
  constructor
  · intro h
    -- what is joined lacks the slash in between, and the base too if it is replaced
    have hlength : base.bytes.length + (p.bytes.length + 1) = (base.join p).bytes.length := by simp [← h, behind]
    cases hp : p.isAbsolute with
    | true =>
      rw [join, if_pos hp] at hlength
      omega
    | false =>
      cases hslash : base.endsInSlash with
      | true => simp [join, hp, hslash] at hlength
      | false => exact ⟨rfl, rfl⟩
  · rintro ⟨hslash, hp⟩
    simp [join, hp, hbase, hslash, behind]

/-! ## Of texts -/

theorem behind_ofString (s t : String) : (ofString s).behind (.ofString t) = .ofString (s ++ "/" ++ t) := by
  have hslash : Utf8.encode "/" = [slash] := by decide
  simp [behind, ofString, Utf8.encode_append, hslash]

theorem isAbsolute_ofString (s : String) : (ofString s).isAbsolute = true ↔ s.toList.head? = some '/' := by
  have hascii : ('/' : Char).toNat < 0x80 := by decide
  rw [← Utf8.head?_encode hascii, isAbsolute, beq_iff_eq]
  rfl

theorem endsInSlash_ofString (s : String) : (ofString s).endsInSlash = true ↔ s.toList.getLast? = some '/' := by
  have hascii : ('/' : Char).toNat < 0x80 := by decide
  rw [← Utf8.getLast?_encode hascii, endsInSlash, beq_iff_eq]
  rfl

end Path

/-! ## Jars in the documents -/

/-- The paths of the libraries that a reader finds. -/
def Classpath.libraries? (text : String) : Option (List String) :=
  (layout.read Xml.unescape text).map fun es => (es.filter (·.kind = .library)).map Entry.path

/-- The paths of the jars outside the workspace that a reader finds. -/
def Factorypath.externalJars? (text : String) : Option (List String) :=
  (layout.read Xml.unescape text).map fun es => (es.filter (·.kind = .externalJar)).map Entry.id

theorem Classpath.libraries?_ofProject (genfiles jar : String) :
    libraries? (ofProject genfiles jar) = some [genfiles ++ "/" ++ jar] := by
  rw [libraries?, ofProject, document_eq_write, Xml.Layout.read_unescape_write]
  rfl

theorem Factorypath.externalJars?_ofProject (jar : Path) : externalJars? (ofProject jar) = some [jar.display] := by
  rw [externalJars?, ofProject, document_eq_write, Xml.Layout.read_unescape_write]
  rfl

namespace Setup

variable {b : Bazel} {c : Config} {o : Options} {s : Session} {d : Disk} {w : Workspace} {key g : String}

/-- The jars that readers of the two staged files find. -/
structure HoldsJars (w : Workspace) (library processors : String) : Prop where
  classpath : (w.staged.content? classpathFile).bind Classpath.libraries? = some [library]
  factorypath : (w.staged.content? factorypathFile).bind Factorypath.externalJars? = some [processors]

theorem holdsJars_of_success (h : (run b c o).on (.ofDisk d) = (.ok w, s)) :
    ∃ genfiles bin, answersIn s.log .genfiles = some genfiles ∧ answersIn s.log .bin = some bin ∧
      HoldsJars w (genfiles ++ "/" ++ c.depsJar)
        ((Path.ofString bin).join (.ofString c.annotationProcessorsJar)).display := by
  obtain ⟨hanswers, hcontents⟩ := contents_of_success h
  obtain ⟨genfiles, hg⟩ := Option.isSome_iff_exists.mp (hanswers .genfiles)
  obtain ⟨bin, hb⟩ := Option.isSome_iff_exists.mp (hanswers .bin)
  have hclasspath := hcontents .classpath
  have hfactorypath := hcontents .factorypath
  simp only [Item.path, Item.content, Answers.get, hg, hb, Option.getD_some] at hclasspath hfactorypath
  refine ⟨genfiles, bin, hg, hb, { classpath := ?_, factorypath := ?_ }⟩
  · rw [hclasspath, Option.bind_some, Classpath.libraries?_ofProject]
  · rw [hfactorypath, Option.bind_some, Factorypath.externalJars?_ofProject]

/-- **The two rules agree on relative jars.** Behind any answer of bazel, the library in the class path is the path that
joining gives, as it stands in the factory path, exactly if the jar is relative or the answer means the root. Byte by
byte they are the same exactly if there is no slash where they meet. A run that succeeds follows one rule for the jar of
the dependencies and the other for the jar of the processors. -/
theorem jars_agree_iff (h : ((b.info key).on s).1 = .ok g) (jar : String) :
    let joined := (Path.ofString g).join (.ofString jar)
    (∃ library processors, Classpath.libraries? (Classpath.ofProject g jar) = some [library] ∧
      Factorypath.externalJars? (Factorypath.ofProject joined) = some [processors] ∧
      Path.ofString processors = joined ∧
      ((Path.ofString library).same joined = true ↔
        (Path.ofString jar).isAbsolute = false ∨ (Path.ofString g).components = [.root]) ∧
      (Path.ofString library = joined ↔ g.toList.getLast? ≠ some '/' ∧ jar.toList.head? ≠ some '/')) ∧
    ∀ (b : Bazel) c o d w s, (run b c o).on (.ofDisk d) = (.ok w, s) →
      ∃ genfiles bin, answersIn s.log .genfiles = some genfiles ∧ answersIn s.log .bin = some bin ∧
        HoldsJars w (genfiles ++ "/" ++ c.depsJar)
          ((Path.ofString bin).join (.ofString c.annotationProcessorsJar)).display := by
  intro joined
  have hbase : (Path.ofString g).bytes ≠ [] := (Bazel.isAnswer_of_info h).bytes_ne_nil
  obtain ⟨processors, hprocessors⟩ := Path.exists_join_ofString g jar
  have hdisplay : joined.display = processors := (congrArg Path.display hprocessors).trans (Path.display_ofString _)
  refine ⟨⟨g ++ "/" ++ jar, processors, Classpath.libraries?_ofProject g jar, ?_, hprocessors.symm, ?_, ?_⟩,
    fun b c o d w s hrun => holdsJars_of_success hrun⟩
  · rw [Factorypath.externalJars?_ofProject, hdisplay]
  · rw [← Path.behind_ofString]
    exact Path.same_behind_iff hbase _
  · rw [← Path.behind_ofString, Path.behind_eq_join_iff hbase, ← Bool.not_eq_true, ← Bool.not_eq_true,
      Path.endsInSlash_ofString, Path.isAbsolute_ofString]

/-- Behind the root an absolute jar keeps its place, though not its spelling. -/
theorem jars_agree_behind_root :
    let t : Bazel.AnswerTable := ⟨[("bazel-genfiles", .ok (Utf8.encode "//.\n"))], [], []⟩
    let joined := (Path.ofString "//.").join (.ofString "/deps.jar")
    ((Bazel.info ⟨"bazel", t.runner⟩ "bazel-genfiles").on (.ofDisk .empty)).1 = .ok "//." ∧
      ∃ library, Classpath.libraries? (Classpath.ofProject "//." "/deps.jar") = some [library] ∧
        (Path.ofString library).same joined = true ∧ Path.ofString library ≠ joined := by
  intro t joined
  have hanswer : ((Bazel.info ⟨"bazel", t.runner⟩ "bazel-genfiles").on (.ofDisk .empty)).1 = .ok "//." := by
    simp only [t]
    decide +kernel
  have hroot : (Path.ofString "//.").components = [.root] := by decide +kernel
  obtain ⟨⟨library, _, hlibrary, _, _, hsame, heq⟩, _⟩ := jars_agree_iff hanswer "/deps.jar"
  have hslash : "/deps.jar".toList.head? = some '/' := by decide
  exact ⟨hanswer, library, hlibrary, hsame.mpr (Or.inr hroot), fun e => (heq.mp e).2 hslash⟩

/-- Behind any other answer it does not. -/
example : (Path.ofString "/g//deps.jar").same ((Path.ofString "/g").join (.ofString "/deps.jar")) = false := by
  decide +kernel

end Setup

end EclipseProject
