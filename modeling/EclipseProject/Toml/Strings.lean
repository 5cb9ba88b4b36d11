import EclipseProject.Toml.Lexical

/-!
# Strings

Basic strings stand between double quotes and know escapes, literal strings stand between single quotes and know
none. Three quotes instead of one let a string go over several lines.
-/

namespace EclipseProject.Toml

def hexValue? (c : Char) : Option Nat :=
  if '0' ≤ c ∧ c ≤ '9' then some (c.toNat - '0'.toNat)
  else if 'a' ≤ c ∧ c ≤ 'f' then some (c.toNat - 'a'.toNat + 10)
  else if 'A' ≤ c ∧ c ≤ 'F' then some (c.toNat - 'A'.toNat + 10)
  else none

def hexNumber? (cs : List Char) : Option Nat := cs.foldlM (fun n c => (hexValue? c).map (16 * n + ·)) 0

def scalar? (n : Nat) : Option Char := if n.isValidChar then some (.ofNat n) else none

def hexChar? (cs : List Char) : Option Char := (hexNumber? cs).bind scalar?

def simpleEscape? (c : Char) : Option Char :=
  if c = 'b' then some '\x08'
  else if c = 't' then some '\t'
  else if c = 'n' then some '\n'
  else if c = 'f' then some '\x0c'
  else if c = 'r' then some '\r'
  else if c = '"' then some '"'
  else if c = '\\' then some '\\'
  else none

def consTo (c : Char) (r : Option (List Char × List Char)) : Option (List Char × List Char) :=
  r.map fun x => (c :: x.1, x.2)

def basicRest : Reader (List Char)
  | [] => none
  | '"' :: rest => some ([], rest)
  | '\\' :: 'u' :: a :: b :: c :: d :: rest => (hexChar? [a, b, c, d]).bind (consTo · (basicRest rest))
  | '\\' :: 'U' :: a :: b :: c :: d :: e :: f :: g :: h :: rest =>
    (hexChar? [a, b, c, d, e, f, g, h]).bind (consTo · (basicRest rest))
  | '\\' :: c :: rest => (simpleEscape? c).bind (consTo · (basicRest rest))
  | c :: rest => if isText c && c != '\\' then consTo c (basicRest rest) else none

def literalRest : Reader (List Char)
  | [] => none
  | '\'' :: rest => some ([], rest)
  | c :: rest => if isText c then consTo c (literalRest rest) else none

/-- A backslash before the end of a line, with only spaces between. -/
def endsLine (cs : List Char) : Bool := (newline? (skipSpaces cs)).isSome

/-- What is left of a basic string of several lines. A backslash at the end of a line skips all spaces and line
ends that follow it. Up to two quotes may stand before the closing three. -/
def longBasicRest (skipping : Bool) : Reader (List Char)
  | [] => none
  | '"' :: '"' :: '"' :: '"' :: '"' :: rest => some (['"', '"'], rest)
  | '"' :: '"' :: '"' :: '"' :: rest => some (['"'], rest)
  | '"' :: '"' :: '"' :: rest => some ([], rest)
  | '\n' :: rest => if skipping then longBasicRest true rest else consTo '\n' (longBasicRest false rest)
  | '\r' :: '\n' :: rest => if skipping then longBasicRest true rest else consTo '\n' (longBasicRest false rest)
  | '\\' :: 'u' :: a :: b :: c :: d :: rest => (hexChar? [a, b, c, d]).bind (consTo · (longBasicRest false rest))
  | '\\' :: 'U' :: a :: b :: c :: d :: e :: f :: g :: h :: rest =>
    (hexChar? [a, b, c, d, e, f, g, h]).bind (consTo · (longBasicRest false rest))
  | '\\' :: c :: rest =>
    if endsLine (c :: rest) then longBasicRest true (c :: rest)
    else (simpleEscape? c).bind (consTo · (longBasicRest false rest))
  | c :: rest =>
    if skipping && isSpace c then longBasicRest true rest
    else if isText c && c != '\\' then consTo c (longBasicRest false rest)
    else none

def longLiteralRest : Reader (List Char)
  | [] => none
  | '\'' :: '\'' :: '\'' :: '\'' :: '\'' :: rest => some (['\'', '\''], rest)
  | '\'' :: '\'' :: '\'' :: '\'' :: rest => some (['\''], rest)
  | '\'' :: '\'' :: '\'' :: rest => some ([], rest)
  | '\n' :: rest => consTo '\n' (longLiteralRest rest)
  | '\r' :: '\n' :: rest => consTo '\n' (longLiteralRest rest)
  | c :: rest => if isText c then consTo c (longLiteralRest rest) else none

/-- A line end right behind the opening quotes does not count. -/
def skipFirstNewline (cs : List Char) : List Char := (newline? cs).getD cs

def shortString : Reader String
  | '"' :: rest => (basicRest rest).map fun x => (.ofList x.1, x.2)
  | '\'' :: rest => (literalRest rest).map fun x => (.ofList x.1, x.2)
  | _ => none

def string : Reader String
  | '"' :: '"' :: '"' :: rest => (longBasicRest false (skipFirstNewline rest)).map fun x => (.ofList x.1, x.2)
  | '\'' :: '\'' :: '\'' :: rest => (longLiteralRest (skipFirstNewline rest)).map fun x => (.ofList x.1, x.2)
  | cs => shortString cs

end EclipseProject.Toml
