/-!
# UTF-8

Texts are strings, files and program output are bytes. Encoding writes each character in one to four bytes.
Decoding is a machine that reads one byte at a time and refuses the first byte that no character allows: a
strict reading fails there, a lenient one puts U+FFFD for the bytes of the unfinished character and goes on.
-/

namespace EclipseProject.Utf8

def encodeChar (c : Char) : List UInt8 :=
  let n := c.toNat
  if n < 0x80 then [.ofNat n]
  else if n < 0x800 then [.ofNat (0xC0 + n / 0x40), .ofNat (0x80 + n % 0x40)]
  else if n < 0x10000 then
    [.ofNat (0xE0 + n / 0x1000), .ofNat (0x80 + n / 0x40 % 0x40), .ofNat (0x80 + n % 0x40)]
  else
    [.ofNat (0xF0 + n / 0x40000), .ofNat (0x80 + n / 0x1000 % 0x40), .ofNat (0x80 + n / 0x40 % 0x40),
      .ofNat (0x80 + n % 0x40)]

def encode (s : String) : List UInt8 := s.toList.flatMap encodeChar

/-! ## The machine -/

inductive State where
  | start
  /-- Inside one: the next byte lies in `low` to `high`, `more` bytes follow it, `value` is read so far. -/
  | inside (low high more value : Nat)
  deriving DecidableEq, Repr

inductive Step where
  | char (c : Char)
  | goOn (q : State)
  | refuse
  deriving DecidableEq, Repr

def first (b : Nat) : Step :=
  if b < 0x80 then .char (.ofNat b)
  else if b < 0xC2 then .refuse
  else if b < 0xE0 then .goOn (.inside 0x80 0xBF 0 (b - 0xC0))
  else if b < 0xF0 then
    .goOn (.inside (if b = 0xE0 then 0xA0 else 0x80) (if b = 0xED then 0x9F else 0xBF) 1 (b - 0xE0))
  else if b < 0xF5 then
    .goOn (.inside (if b = 0xF0 then 0x90 else 0x80) (if b = 0xF4 then 0x8F else 0xBF) 2 (b - 0xF0))
  else .refuse

def State.step (b : Nat) : State → Step
  | .start => first b
  | .inside low high more value =>
    if low ≤ b ∧ b ≤ high then
      match more with
      | 0 => .char (.ofNat (value * 0x40 + (b - 0x80)))
      | k + 1 => .goOn (.inside 0x80 0xBF k (value * 0x40 + (b - 0x80)))
    else .refuse

/-! ## Two ways of reading -/

def replacement : Char := '\uFFFD'

def decodeStrict : State → List UInt8 → Option (List Char)
  | .start, [] => some []
  | .inside .., [] => none
  | q, b :: rest =>
    match q.step b.toNat with
    | .char c => (decodeStrict .start rest).map (c :: ·)
    | .goOn q' => decodeStrict q' rest
    | .refuse => none

/-- A byte refused inside a character ends that character and is read again between characters. -/
def decodeLenient : State → List UInt8 → List Char
  | .start, [] => []
  | .inside .., [] => [replacement]
  | q, b :: rest =>
    match q.step b.toNat with
    | .char c => c :: decodeLenient .start rest
    | .goOn q' => decodeLenient q' rest
    | .refuse =>
      match q with
      | .start => replacement :: decodeLenient .start rest
      | .inside .. =>
        match first b.toNat with
        | .char c => replacement :: c :: decodeLenient .start rest
        | .goOn q' => replacement :: decodeLenient q' rest
        | .refuse => replacement :: replacement :: decodeLenient .start rest

def decode? (bytes : List UInt8) : Option String := (decodeStrict .start bytes).map String.ofList

def decode (bytes : List UInt8) : String := .ofList (decodeLenient .start bytes)

end EclipseProject.Utf8
