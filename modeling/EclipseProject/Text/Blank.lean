/-!
# Blank characters and lines

The blank characters are those with the Unicode property White_Space. A text is cut at its line feeds. A carriage return
before one is left in its piece: it is blank, so trimming removes it with the rest.
-/

namespace EclipseProject.Text

def isBlank (c : Char) : Bool :=
  let n := c.toNat
  (9 ≤ n && n ≤ 13) || n == 0x20 || n == 0x85 || n == 0xA0 || n == 0x1680 || (0x2000 ≤ n && n ≤ 0x200A) ||
    n == 0x2028 || n == 0x2029 || n == 0x202F || n == 0x205F || n == 0x3000

def trim (cs : List Char) : List Char := ((cs.dropWhile isBlank).reverse.dropWhile isBlank).reverse

/-- The pieces between line feeds, so one more than there are line feeds. -/
def lines : List Char → List (List Char)
  | [] => [[]]
  | '\n' :: rest => [] :: lines rest
  | c :: rest =>
    match lines rest with
    | [] => [[c]]
    | line :: more => (c :: line) :: more

def firstNonblank? (cs : List Char) : Option (List Char) := ((lines cs).map trim).find? (!·.isEmpty)

end EclipseProject.Text
