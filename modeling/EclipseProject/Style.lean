/-!
# Styled terminal text

A styled text stands between opening codes and the reset code. Where it is painted, a reset inside the text is
followed by the opening codes again, so the style reaches to the end. Without colors a text is left as it is.
-/

namespace EclipseProject

inductive Style where
  | yellow
  | green
  | blue
  | red
  | bold
  | banner
  | heading
  | alarm
  deriving DecidableEq, Repr

namespace Style

def codes : Style → List String
  | .yellow => ["33"]
  | .green => ["32"]
  | .blue => ["34"]
  | .red => ["31"]
  | .bold => ["1"]
  | .banner => ["1;94"]
  | .heading => ["1", "4"]
  | .alarm => ["1", "31"]

def opening (style : Style) : List Char :=
  style.codes.flatMap fun code => '\x1b' :: '[' :: code.toList ++ ['m']

def reset : List Char := ['\x1b', '[', '0', 'm']

/-- The text with `again` behind each reset code. -/
def reopen (again : List Char) : List Char → List Char
  | [] => []
  | '\x1b' :: '[' :: '0' :: 'm' :: rest => reset ++ again ++ reopen again rest
  | c :: rest => c :: reopen again rest

def enclose (style : Style) (text : List Char) : List Char := style.opening ++ text ++ reset

def paint (colored : Bool) (style : Style) (text : String) : String :=
  if colored then .ofList (style.enclose (reopen style.opening text.toList)) else text

end Style

end EclipseProject
