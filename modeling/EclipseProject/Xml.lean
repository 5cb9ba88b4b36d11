/-!
# Text in XML

The five characters that XML sets apart are written as entities, so an escaped text holds no delimiter.
-/

namespace EclipseProject.Xml

def escapeChar (c : Char) : List Char :=
  if c = '<' then "&lt;".toList
  else if c = '>' then "&gt;".toList
  else if c = '&' then "&amp;".toList
  else if c = '\'' then "&apos;".toList
  else if c = '"' then "&quot;".toList
  else [c]

def escape (s : String) : String := .ofList (s.toList.flatMap escapeChar)

def declaration : String := "<?xml version=\"1.0\" encoding=\"UTF-8\"?>"

/-- The lines between two tags, each indented by two spaces. No lines leave one empty line. -/
def body (elements : List String) : String := "\n".intercalate (elements.map ("  " ++ ·))

end EclipseProject.Xml
