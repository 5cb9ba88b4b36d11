/-!
# What is reported of an error

A report has a text, a stable code, a hint and, where another error lies beneath, that error's text.
-/

namespace EclipseProject

structure Diagnostic where
  message : String
  code : String
  help : String
  source : Option String
  deriving DecidableEq, Repr

end EclipseProject
