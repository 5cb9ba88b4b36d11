import EclipseProject.Decimal.Binary64

/-!
# The fewest digits that read back

Of the decimal numbers that are read as a given binary one, the one with the fewest digits is written, and of
those the nearest. All bounds are exact: numbers are counted in quarters of the last binary place.
-/

namespace EclipseProject.Binary64

/-- The point of the grid `10 ^ k` that is read back as `m · 2 ^ q`, if there is one. -/
def onGrid? (m : Nat) (q k : Int) : Option Nat :=
  let p := Nat.pow 2 (q - 2).toNat * Nat.pow 10 (-k).toNat
  let d := Nat.pow 2 (2 - q).toNat * Nat.pow 10 k.toNat
  let low := if m = Nat.pow 2 52 then 4 * m - 1 else 4 * m - 2
  let high := 4 * m + 2
  let inside (x : Nat) : Bool :=
    if m % 2 = 0 then low * p ≤ x * d && x * d ≤ high * p else low * p < x * d && x * d < high * p
  let below := 4 * m * p / d
  let rest := 2 * (4 * m * p % d)
  match inside below, inside (below + 1) with
  | true, true => some (if rest < d then below else below + 1)
  | true, false => some below
  | false, true => some (below + 1)
  | false, false => none

/-- Digits and power of ten. Twenty-five grids reach from above the number to below its seventeenth digit. -/
def shortest (m : Nat) (q : Int) : Nat × Int :=
  let top : Int := ((4 * m).log2 + q - 1) * 30103 / 100000 + 1
  ((List.range 25).findSome? fun (i : Nat) => (onGrid? m q (top - i)).map (·, top - (i : Int))).getD (0, 0)

/-- Digits times a power of ten without an exponent, always with a point. -/
def positional (digits : Nat) (power : Int) : String :=
  let ds := Nat.toDigits 10 digits
  if 0 ≤ power then .ofList (ds ++ List.replicate power.toNat '0' ++ ['.', '0'])
  else
    let places := (-power).toNat
    let ds := List.replicate (places + 1 - ds.length) '0' ++ ds
    .ofList (ds.take (ds.length - places) ++ '.' :: ds.drop (ds.length - places))

def toText : Binary64 → String
  | .finite negative m q =>
    let text := if m = 0 then "0.0" else positional (shortest m q).1 (shortest m q).2
    if negative then "-" ++ text else text
  | .infinite negative => if negative then "-inf" else "inf"
  | .nan => "NaN"

end EclipseProject.Binary64
