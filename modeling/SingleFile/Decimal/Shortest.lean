/-!
# Shortest decimals

A binary fraction `m · 2 ^ q` stands for all reals that round to it. Of the decimals
among those reals this module finds one with the fewest digits, and of these the
nearest one. All arithmetic is exact.
-/

namespace SingleFile

/-- The number `coefficient · 10 ^ exponent`. -/
structure Decimal where
  coefficient : Nat
  exponent : Int
  deriving Repr, DecidableEq

/-- A positive binary fraction `mantissa · 2 ^ exponent`. -/
structure BinaryFraction where
  mantissa : Nat
  exponent : Int
  /-- Whether the next smaller fraction is only half as far away as the next larger
  one, as it is at the lower end of a range of equal exponents. -/
  atRangeStart : Bool
  deriving Repr, DecidableEq

namespace BinaryFraction

/-- The fraction, and the ends of the interval that rounds to it, as multiples of a
quarter of its last place. -/
def quarters (x : BinaryFraction) : Nat × Nat × Nat :=
  let middle := 4 * x.mantissa
  (middle - (if x.atRangeStart then 1 else 2), middle, middle + 2)

/-- Factors `a` and `b` such that `n` quarters of the last place compare with
`d · 10 ^ place` as `n * a` compares with `d * b`. -/
def commonScale (x : BinaryFraction) (place : Int) : Nat × Nat :=
  (Nat.pow 2 (x.exponent - 2).toNat * Nat.pow 10 (-place).toNat,
    Nat.pow 10 place.toNat * Nat.pow 2 (2 - x.exponent).toNat)

/-- Whether `d · 10 ^ place` rounds to the fraction: it lies within the interval, whose
ends count when the mantissa is even. -/
def admits (x : BinaryFraction) (place : Int) (d : Nat) : Bool :=
  let (low, _, high) := x.quarters
  let (a, b) := x.commonScale place
  if x.mantissa % 2 = 0 then low * a ≤ d * b && d * b ≤ high * a
  else low * a < d * b && d * b < high * a

/-- The admitted one of the two neighbours of the fraction among the multiples of
`10 ^ place`; of two the nearer, and the even one when they are equally near. -/
def nearest? (x : BinaryFraction) (place : Int) : Option Nat :=
  let (_, middle, _) := x.quarters
  let (a, b) := x.commonScale place
  let below := middle * a / b
  match x.admits place below, x.admits place (below + 1) with
  | true, true =>
    let down := middle * a - below * b
    let up := (below + 1) * b - middle * a
    if down < up || (down = up && below % 2 = 0) then some below else some (below + 1)
  | true, false => some below
  | false, true => some (below + 1)
  | false, false => none

/-- The least place above the fraction's first digit: the fraction is less than
`10 ^ magnitude`, and not less than a tenth of that. -/
def magnitude (x : BinaryFraction) : Int :=
  let top := x.mantissa * Nat.pow 2 x.exponent.toNat
  let bottom := Nat.pow 2 (-x.exponent).toNat
  if bottom ≤ top then (Nat.toDigits 10 (top / bottom)).length
  else -(((List.range 400).find? fun zeros => bottom ≤ top * Nat.pow 10 (zeros + 1)).getD 0 : Nat)

/-- A decimal with the fewest digits that rounds to the fraction. Seventeen digits are
always enough for a mantissa of 53 bits. -/
def shortest (x : BinaryFraction) : Decimal :=
  let places := (List.range 17).map fun n => x.magnitude - (n + 1 : Nat)
  match places.findSome? fun place => (x.nearest? place).map fun d => (⟨d, place⟩ : Decimal) with
  | some found => found
  | none => ⟨0, 0⟩

end BinaryFraction

end SingleFile
