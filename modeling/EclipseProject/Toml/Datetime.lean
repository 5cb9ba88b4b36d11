import EclipseProject.Toml.Number

/-!
# Dates and times

A date, a time of day, or both, then perhaps with an offset. Days exist in the calendar; a minute may have a leap
second. Fractions of a second are kept to nine digits.
-/

namespace EclipseProject.Toml

structure Date where
  year : Nat
  month : Nat
  day : Nat
  deriving DecidableEq, Repr

structure Time where
  hour : Nat
  minute : Nat
  second : Nat
  nanosecond : Nat
  deriving DecidableEq, Repr

inductive Offset where
  | zulu
  | minutes (n : Int)
  deriving DecidableEq, Repr

inductive Datetime where
  | date (d : Date)
  | time (t : Time)
  | moment (d : Date) (t : Time) (offset : Option Offset)
  deriving DecidableEq, Repr

/-! ## Writing -/

def padded (width n : Nat) : List Char :=
  let ds := Nat.toDigits 10 n
  List.replicate (width - ds.length) '0' ++ ds

def Date.text (d : Date) : List Char := padded 4 d.year ++ '-' :: padded 2 d.month ++ '-' :: padded 2 d.day

def fractionText (nanosecond : Nat) : List Char :=
  if nanosecond = 0 then [] else '.' :: ((padded 9 nanosecond).reverse.dropWhile (· == '0')).reverse

def Time.text (t : Time) : List Char :=
  padded 2 t.hour ++ ':' :: padded 2 t.minute ++ ':' :: padded 2 t.second ++ fractionText t.nanosecond

def Offset.text : Offset → List Char
  | .zulu => ['Z']
  | .minutes n =>
    (if n < 0 then '-' else '+') :: padded 2 (n.natAbs / 60) ++ ':' :: padded 2 (n.natAbs % 60)

def Datetime.text : Datetime → String
  | .date d => .ofList d.text
  | .time t => .ofList t.text
  | .moment d t offset => .ofList (d.text ++ 'T' :: t.text ++ (offset.map Offset.text).getD [])

/-! ## Reading -/

def fixedDigits (count low high : Nat) (cs : List Char) : Option (Nat × List Char) := do
  let ds := cs.take count
  if ds.length < count then none
  let n := ofDigits 10 (← ds.mapM (digitValue? 10))
  if low ≤ n ∧ n ≤ high then some (n, cs.drop count) else none

def exactly (c : Char) : Reader Unit
  | d :: rest => if d = c then some ((), rest) else none
  | [] => none

def isLeapYear (y : Nat) : Bool := y % 4 == 0 && (y % 100 != 0 || y % 400 == 0)

def daysInMonth (year month : Nat) : Nat :=
  if month = 2 then if isLeapYear year then 29 else 28
  else if month = 4 ∨ month = 6 ∨ month = 9 ∨ month = 11 then 30
  else 31

def date (cs : List Char) : Option (Date × List Char) := do
  let (year, cs) ← fixedDigits 4 0 9999 cs
  let (_, cs) ← exactly '-' cs
  let (month, cs) ← fixedDigits 2 1 12 cs
  let (_, cs) ← exactly '-' cs
  let (day, cs) ← fixedDigits 2 1 (daysInMonth year month) cs
  return (⟨year, month, day⟩, cs)

def fraction : Reader Nat
  | '.' :: rest =>
    let ds := rest.takeWhile isDigit
    if ds = [] then none
    else some (ofDigits 10 (((ds.take 9).filterMap (digitValue? 10)) ++ List.replicate (9 - ds.length) 0),
      rest.dropWhile isDigit)
  | cs => some (0, cs)

def time (cs : List Char) : Option (Time × List Char) := do
  let (hour, cs) ← fixedDigits 2 0 23 cs
  let (_, cs) ← exactly ':' cs
  let (minute, cs) ← fixedDigits 2 0 59 cs
  let (_, cs) ← exactly ':' cs
  let (second, cs) ← fixedDigits 2 0 60 cs
  let (nanosecond, cs) ← fraction cs
  return (⟨hour, minute, second, nanosecond⟩, cs)

def offset (cs : List Char) : Option (Option Offset × List Char) :=
  let read (sign : Int) (cs : List Char) : Option (Option Offset × List Char) := do
    let (hour, cs) ← fixedDigits 2 0 23 cs
    let (_, cs) ← exactly ':' cs
    let (minute, cs) ← fixedDigits 2 0 59 cs
    return (some (.minutes (sign * (60 * hour + minute : Nat))), cs)
  match cs with
  | 'Z' :: rest | 'z' :: rest => some (some .zulu, rest)
  | '+' :: rest => read 1 rest
  | '-' :: rest => read (-1) rest
  | _ => some (none, cs)

/-- A space separates a date from a time only if a time follows it. -/
def startsTime (cs : List Char) : Bool :=
  match cs with
  | a :: b :: ':' :: _ => isDigit a && isDigit b
  | _ => false

def startsDate (cs : List Char) : Bool :=
  match cs with
  | a :: b :: c :: d :: '-' :: _ => isDigit a && isDigit b && isDigit c && isDigit d
  | _ => false

def separated? : List Char → Option (List Char)
  | 'T' :: rest | 't' :: rest | ' ' :: rest => if startsTime rest then some rest else none
  | _ => none

def datetime (cs : List Char) : Option (Datetime × List Char) := do
  if startsTime cs then
    let (t, rest) ← time cs
    return (.time t, rest)
  let (d, rest) ← date cs
  match separated? rest with
  | none => return (.date d, rest)
  | some more =>
    let (t, more) ← time more
    let (o, more) ← offset more
    return (.moment d t o, more)

end EclipseProject.Toml
