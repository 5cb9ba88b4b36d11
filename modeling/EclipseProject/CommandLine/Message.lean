import EclipseProject.Style
import EclipseProject.Text.Plain

/-!
# Messages of the command line

A message is written in parts, each with a style of its own or none. With colors a part is enclosed in its codes
and otherwise left alone. Without colors nothing of a message acts on the terminal: a control sequence that came
in with an argument is taken out too.
-/

namespace EclipseProject.CommandLine

inductive Span where
  | plain (text : String)
  | styled (style : Style) (text : String)
  deriving DecidableEq, Repr

def Span.render (colored : Bool) : Span → String
  | .plain text => if colored then text else Text.plain text
  | .styled style text => if colored then .ofList (style.enclose text.toList) else Text.plain text

abbrev Message := List Span

def Message.render (colored : Bool) (m : Message) : String := String.join (m.map (Span.render colored))

end EclipseProject.CommandLine
