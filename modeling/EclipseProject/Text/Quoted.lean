import EclipseProject.Text.Unprintable

/-!
# Quoted text

A text between double quotes for a message: the quote, the backslash and what leaves no mark are escaped.
-/

namespace EclipseProject.Text

def escapeQuoted (c : Char) : List Char :=
  if c = '"' ∨ c = '\\' then ['\\', c]
  else if c = '\n' then ['\\', 'n']
  else if c = '\r' then ['\\', 'r']
  else if c = '\t' then ['\\', 't']
  else if c.toNat = 0 then ['\\', '0']
  else if isUnprintable c then "\\u\x7b".toList ++ Nat.toDigits 16 c.toNat ++ ['\x7d']
  else [c]

def quoted (s : String) : String := .ofList ('"' :: s.toList.flatMap escapeQuoted ++ ['"'])

end EclipseProject.Text
