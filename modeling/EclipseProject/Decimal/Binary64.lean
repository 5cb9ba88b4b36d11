/-!
# Binary floating point

A finite number is `mantissa · 2 ^ exponent` with a mantissa below `2 ^ 53` and the least exponent, not below
`-1074`, that allows it. A decimal number is read as the nearest of them, of two nearest the one with the even
mantissa; from the midpoint above the greatest one on it is infinite.
-/

namespace EclipseProject

inductive Binary64 where
  | finite (negative : Bool) (mantissa : Nat) (exponent : Int)
  | infinite (negative : Bool)
  | nan
  deriving DecidableEq, Repr

namespace Binary64

/-- The quotient to the nearest whole number, a half to the even one. -/
def roundQuotient (num den : Nat) : Nat :=
  let q := num / den
  let twice := 2 * (num % den)
  if twice < den ∨ (twice = den ∧ q % 2 = 0) then q else q + 1

def floorLog2 (num den : Nat) : Int :=
  let e : Int := (num.log2 : Int) - den.log2
  if den * Nat.pow 2 e.toNat ≤ num * Nat.pow 2 (-e).toNat then e else e - 1

def ofRatio (negative : Bool) (num den : Nat) : Binary64 :=
  let q := max (-1074) (floorLog2 num den - 52)
  let m := roundQuotient (num * Nat.pow 2 (-q).toNat) (den * Nat.pow 2 q.toNat)
  let r : Nat × Int := if m = Nat.pow 2 53 then (Nat.pow 2 52, q + 1) else (m, q)
  if r.2 > 971 then .infinite negative else .finite negative r.1 r.2

/-- The number nearest to `digits · 10 ^ exponent`. Magnitudes far out of range are not computed. -/
def ofDecimal (negative : Bool) (digits : Nat) (exponent : Int) : Binary64 :=
  let width : Int := (Nat.toDigits 10 digits).length
  if digits = 0 ∨ width + exponent < -330 then .finite negative 0 (-1074)
  else if width + exponent > 310 then .infinite negative
  else ofRatio negative (digits * Nat.pow 10 exponent.toNat) (Nat.pow 10 (-exponent).toNat)

end Binary64

end EclipseProject
