/-!
# The preference files

Lines `key=value` without a line feed at the end. Values are written as they are.
-/

namespace EclipseProject.Preferences

def document (settings : List (String × String)) : String :=
  "\n".intercalate (settings.map fun s => s.1 ++ "=" ++ s.2)

def version : String × String := ("eclipse.preferences.version", "1")

def compiler : String := document [version, ("org.eclipse.jdt.core.compiler.processAnnotations", "enabled")]

def annotationProcessing (dir : String) : String :=
  document [version, ("org.eclipse.jdt.apt.aptEnabled", "true"), ("org.eclipse.jdt.apt.genSrcDir", dir),
    ("org.eclipse.jdt.apt.reconcileEnabled", "true")]

end EclipseProject.Preferences
