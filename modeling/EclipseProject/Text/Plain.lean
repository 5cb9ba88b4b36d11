import EclipseProject.Text.Utf8

/-!
# Plain text

What is left of a text when the control sequences of a terminal are taken out. A sequence starts with an escape;
the character behind it says how far the sequence goes. Outside of sequences the other controls are dropped, all
but the white space among them. White space also interrupts a sequence: the text behind it is shown, and the
sequence goes on where the next control is dropped.
-/

namespace EclipseProject.Text

inductive Sequence where
  | outside
  | escape
  /-- Behind an escape and characters from the space to the slash: one more character ends it. -/
  | escapeTail
  /-- Behind an escape and a bracket: a character from the at sign to the tilde ends it. -/
  | control
  /-- A command to the system around the terminal, which a BEL ends. -/
  | command
  /-- The head of a string to a device, before any parameter. -/
  | device
  | deviceParameters
  | deviceTail
  /-- A string that is not shown. It is ended from outside, or by a byte 9C. -/
  | hidden
  deriving DecidableEq, Repr

namespace Sequence

def isBetween (low high : Nat) (c : Char) : Bool := low ≤ c.toNat && c.toNat ≤ high

def isLayout (c : Char) : Bool := c = '\t' || c = '\n' || c = '\x0c' || c = '\r'

def isVisible (c : Char) : Bool := isLayout c || (0x20 ≤ c.toNat && c ≠ '\x7f')

def shows (c : Char) : Sequence → Bool
  | .outside => isVisible c
  | .escape | .escapeTail | .control => isLayout c
  | .command | .device | .deviceParameters | .deviceTail | .hidden => false

/-- Goes on with a character that is neither an escape nor a cancellation. -/
def next (c : Char) : Sequence → Sequence
  | .outside => .outside
  | .escape =>
    if isBetween 0x20 0x2F c then .escapeTail
    else if c = '[' then .control
    else if c = ']' then .command
    else if c = 'P' then .device
    else if c = 'X' ∨ c = '^' ∨ c = '_' then .hidden
    else if isBetween 0x30 0x7E c then .outside
    else .escape
  | .escapeTail => if isBetween 0x30 0x7E c then .outside else .escapeTail
  | .control => if isBetween 0x40 0x7E c then .outside else .control
  | .command => if c = '\x07' then .outside else .command
  | .device =>
    if isBetween 0x20 0x2F c then .deviceTail
    else if isBetween 0x30 0x3F c then .deviceParameters
    else if isBetween 0x40 0x7E c then .hidden
    else .device
  | .deviceParameters =>
    if isBetween 0x20 0x2F c then .deviceTail
    else if isBetween 0x3C 0x7E c then .hidden
    else .deviceParameters
  | .deviceTail => if isBetween 0x30 0x7E c then .hidden else .deviceTail
  | .hidden => if (Utf8.encodeChar c).contains 0x9C then .outside else .hidden

end Sequence

/-- A sequence with whether it is interrupted by text that is being shown. -/
structure Reading where
  sequence : Sequence
  showing : Bool
  deriving DecidableEq, Repr

namespace Reading

def start : Reading := ⟨.outside, true⟩

/-- Where reading stands behind the character, and whether the character is shown. A character beyond ASCII ends
an interrupted sequence for good. -/
def step (c : Char) (r : Reading) : Reading × Bool :=
  if c = '\x1b' then (⟨.escape, false⟩, false)
  else if c = '\x18' ∨ c = '\x1a' then (⟨.outside, false⟩, false)
  else if r.showing then
    if Sequence.isVisible c then (if c.toNat < 0x80 then r else start, true)
    else ({ r with showing := false }, false)
  else if r.sequence.shows c then ({ r with showing := true }, true)
  else (⟨r.sequence.next c, false⟩, false)

def shown : Reading → List Char → List Char
  | _, [] => []
  | r, c :: rest =>
    match r.step c with
    | (r', true) => c :: shown r' rest
    | (r', false) => shown r' rest

end Reading

def plain (text : String) : String := .ofList (Reading.start.shown text.toList)

end EclipseProject.Text
