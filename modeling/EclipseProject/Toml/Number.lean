import EclipseProject.Decimal.Binary64
import EclipseProject.Toml.Lexical

/-!
# Numbers

An integer has a sign and decimal digits without leading zeros, or no sign and a marked base, and fits 64 bits.
A float has a fraction, an exponent or both, or is an infinity or no number. Single underscores may stand between
digits.
-/

namespace EclipseProject.Toml

inductive Number where
  | integer (n : Int)
  | float (x : Binary64)
  deriving DecidableEq, Repr

def digitValue? (base : Nat) (c : Char) : Option Nat :=
  let n :=
    if '0' ≤ c ∧ c ≤ '9' then some (c.toNat - '0'.toNat)
    else if 'a' ≤ c ∧ c ≤ 'z' then some (c.toNat - 'a'.toNat + 10)
    else if 'A' ≤ c ∧ c ≤ 'Z' then some (c.toNat - 'A'.toNat + 10)
    else none
  n.filter (· < base)

def isDigit (c : Char) : Bool := (digitValue? 10 c).isSome

/-- Digits of a base, at least one, with single underscores between them that are left out. -/
def digitRun (base : Nat) : Reader (List Nat)
  | [] => none
  | [c] => (digitValue? base c).map fun n => ([n], [])
  | c :: '_' :: rest =>
    (digitValue? base c).bind fun n => (digitRun base rest).map fun x => (n :: x.1, x.2)
  | c :: d :: rest =>
    (digitValue? base c).bind fun n =>
      if (digitValue? base d).isSome then (digitRun base (d :: rest)).map fun x => (n :: x.1, x.2)
      else some ([n], d :: rest)

def ofDigits (base : Nat) (ds : List Nat) : Nat := ds.foldl (fun n d => base * n + d) 0

def wholePart : Reader (List Nat)
  | '0' :: rest => some ([0], rest)
  | cs => digitRun 10 cs

def exponentPart (cs : List Char) : Option (Int × List Char) :=
  let read (sign : Int) (cs : List Char) : Option (Int × List Char) :=
    (digitRun 10 cs).map fun x => (sign * ofDigits 10 x.1, x.2)
  match cs with
  | 'e' :: '+' :: rest | 'E' :: '+' :: rest => read 1 rest
  | 'e' :: '-' :: rest | 'E' :: '-' :: rest => read (-1) rest
  | 'e' :: rest | 'E' :: rest => read 1 rest
  | _ => some (0, cs)

/-- A decimal number beyond all bounds is refused above, not below. -/
def float? (negative : Bool) (digits : List Nat) (exponent : Int) : Option Number :=
  let x := Binary64.ofDecimal negative (ofDigits 10 digits) exponent
  if x = .infinite false then none else some (.float x)

def integer? (n : Int) : Option Number :=
  if -0x8000000000000000 ≤ n ∧ n < 0x8000000000000000 then some (.integer n) else none

def decimal (negative : Bool) (cs : List Char) : Option (Number × List Char) := do
  let (whole, rest) ← wholePart cs
  match rest with
  | '.' :: more =>
    let (fraction, more) ← digitRun 10 more
    let (exponent, more) ← exponentPart more
    return (← float? negative (whole ++ fraction) (exponent - fraction.length), more)
  | 'e' :: _ | 'E' :: _ =>
    let (exponent, more) ← exponentPart rest
    return (← float? negative whole exponent, more)
  | _ => return (← integer? (if negative then -(ofDigits 10 whole : Int) else ofDigits 10 whole), rest)

def inBase (base : Nat) (cs : List Char) : Option (Number × List Char) := do
  let (digits, rest) ← digitRun base cs
  return (← integer? (ofDigits base digits), rest)

def signed (negative : Bool) : Reader Number
  | 'i' :: 'n' :: 'f' :: rest => some (.float (.infinite negative), rest)
  | 'n' :: 'a' :: 'n' :: rest => some (.float .nan, rest)
  | cs => decimal negative cs

def number : Reader Number
  | '+' :: rest => signed false rest
  | '-' :: rest => signed true rest
  | '0' :: 'x' :: rest => inBase 16 rest
  | '0' :: 'o' :: rest => inBase 8 rest
  | '0' :: 'b' :: rest => inBase 2 rest
  | cs => signed false cs

end EclipseProject.Toml
