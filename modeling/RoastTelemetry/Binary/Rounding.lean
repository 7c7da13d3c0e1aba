import RoastTelemetry.Binary.Format

/-!
# Rounding a ratio to the nearest code

Every operation of the library computes its exact result as a ratio of natural numbers of units
and rounds once, here.
-/

namespace RoastTelemetry

/-- The integer nearest to `n / d`; a tie goes to the even one. -/
def roundHalfEven (n d : Nat) : Nat :=
  if 2 * (n % d) < d then n / d
  else if d < 2 * (n % d) then n / d + 1
  else n / d + n / d % 2

/-- The integer nearest to `n / d`; a tie goes to the larger one. -/
def roundHalfUp (n d : Nat) : Nat := (2 * n + d) / (2 * d)

/--
The code nearest to `n / d` units, ties to the even code. In the binade of the ratio codes are
`2 ^ shift` units apart, so the ratio is rounded to a multiple of that; a result that reaches the
next binade carries into the exponent field by itself. Ratios beyond the largest finite value
give codes from `infinityCode` up.
-/
def Format.nearestCode (f : Format) (n d : Nat) : Nat :=
  let shift := (n / d).log2 - f.fractionBits
  shift * Nat.pow 2 f.fractionBits + roundHalfEven n (d * Nat.pow 2 shift)

end RoastTelemetry
