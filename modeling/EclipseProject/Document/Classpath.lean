import EclipseProject.Xml

/-!
# The `.classpath` document

It lists the containers, source folders, libraries and the output folder of a project, one element a line.
-/

namespace EclipseProject.Classpath

inductive Kind where
  | container
  | source
  | library
  | output
  deriving DecidableEq, Repr

def Kind.word : Kind → String
  | .container => "con"
  | .source => "src"
  | .library => "lib"
  | .output => "output"

/-- Relative paths start at the project's root. -/
structure Entry where
  kind : Kind
  path : String
  deriving DecidableEq, Repr

def Entry.element (e : Entry) : String :=
  "<classpathentry kind=\"" ++ e.kind.word ++ "\" path=\"" ++ Xml.escape e.path ++ "\"/>"

def document (entries : List Entry) : String :=
  Xml.declaration ++ "\n<classpath>\n" ++ Xml.body (entries.map Entry.element) ++ "\n</classpath>"

def runtimeContainer : String := "org.eclipse.jdt.launching.JRE_CONTAINER"

/-- The runtime, the source folders, the generated sources linked into the project, and the jar with the
dependencies below `genfiles`. -/
def projectEntries (genfiles depsJar : String) : List Entry :=
  [⟨.container, runtimeContainer⟩, ⟨.source, "java"⟩, ⟨.source, "javatests"⟩, ⟨.source, "bazel-genfiles/java"⟩,
    ⟨.library, genfiles ++ "/" ++ depsJar⟩, ⟨.output, "bin"⟩]

def ofProject (genfiles depsJar : String) : String := document (projectEntries genfiles depsJar)

end EclipseProject.Classpath
