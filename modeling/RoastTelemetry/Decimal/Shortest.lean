import RoastTelemetry.Binary.Basic
import RoastTelemetry.Decimal.Basic

/-!
# The shortest decimal that reads back

Of all decimals that round to a given value, the ones with the fewest digits, and of those the
nearest. Everything is exact: magnitudes are scaled by a power of ten that makes them and the
bounds of their rounding intervals whole numbers.

If a grid of powers of ten has a point in the interval around the value, then one of the two grid
points next to the value lies in it, so only those two are tried, from the coarsest grid down.
-/

namespace RoastTelemetry

/-- Which of two equally near decimals is taken. -/
inductive Tie where
  /-- The one with the even last digit. -/
  | even
  /-- The larger one. -/
  | up
deriving DecidableEq

namespace Format

/-- The magnitude of a code times `10 ^ places`, a whole number. -/
def scaled (f : Format) (code : Nat) : Nat := f.units code * Nat.pow 5 f.places

/--
Whether a whole number, scaled as in `scaled`, rounds to the code: it lies between the half-way
points to the neighbouring codes, and on one of them only if the code is even.
-/
def roundsTo (f : Format) (code n : Nat) : Bool :=
  let low := f.scaled (code - 1) + f.scaled code
  let high := f.scaled code + f.scaled (code + 1)
  if code % 2 = 0 then low ≤ 2 * n && 2 * n ≤ high else low < 2 * n && 2 * n < high

/-- The better of the two multiples of `grid` around the value that round to it, over `grid`. -/
def gridPoint? (f : Format) (tie : Tie) (code grid : Nat) : Option Nat :=
  let exact := f.scaled code
  let below := exact / grid
  match f.roundsTo code (below * grid), f.roundsTo code ((below + 1) * grid) with
  | true, false => some below
  | false, true => some (below + 1)
  | false, false => none
  | true, true =>
    let middle := (2 * below + 1) * grid
    if 2 * exact < middle then some below
    else if middle < 2 * exact then some (below + 1)
    else match tie with
      | .even => some (below + below % 2)
      | .up => some (below + 1)

/-- The first grid at or below `10 ^ k` with a point that reads back; the grid of ones has. -/
def coarsestGridPoint (f : Format) (tie : Tie) (code : Nat) : Nat → Nat × Nat
  | 0 => (f.scaled code, 0)
  | k + 1 =>
    match f.gridPoint? tie code (Nat.pow 10 (k + 1)) with
    | some n => (n, k + 1)
    | none => f.coarsestGridPoint tie code k

/-- The shortest decimal of a magnitude other than zero. -/
def shortest (f : Format) (tie : Tie) (code : Nat) : Decimal :=
  let point := f.coarsestGridPoint tie code ((Digit.ofNat (f.scaled code)).length - 1)
  Decimal.ofNat point.1 (point.2 - (f.places : Int))

end Format

end RoastTelemetry
