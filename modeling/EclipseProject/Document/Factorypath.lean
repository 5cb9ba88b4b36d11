import EclipseProject.Path.Basic
import EclipseProject.Xml

/-!
# The `.factorypath` document

It lists the plugins and jars that provide annotation processors, one element a line.
-/

namespace EclipseProject.Factorypath

inductive Kind where
  | plugin
  | externalJar
  | workspaceJar
  deriving DecidableEq, Repr

def Kind.word : Kind → String
  | .plugin => "PLUGIN"
  | .externalJar => "EXTJAR"
  | .workspaceJar => "WKSPJAR"

/-- A plugin is named by its identifier, a jar by its path. -/
structure Entry where
  kind : Kind
  id : String
  deriving DecidableEq, Repr

def Entry.element (e : Entry) : String :=
  "<factorypathentry kind=\"" ++ e.kind.word ++ "\" id=\"" ++ Xml.escape e.id ++
    "\" enabled=\"true\" runInBatchMode=\"false\"/>"

def document (entries : List Entry) : String :=
  "<factorypath>\n" ++ Xml.body (entries.map Entry.element) ++ "\n</factorypath>"

def annotationsPlugin : String := "org.eclipse.jst.ws.annotations.core"

def projectEntries (processorsJar : Path) : List Entry :=
  [⟨.plugin, annotationsPlugin⟩, ⟨.externalJar, processorsJar.display⟩]

def ofProject (processorsJar : Path) : String := document (projectEntries processorsJar)

end EclipseProject.Factorypath
