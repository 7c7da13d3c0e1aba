/-!
# Decimal digits

Natural numbers as lists of digits, leading digit first, and decimals in scientific form: digits
with the power of ten of the first one.
-/

namespace RoastTelemetry

/-- One decimal digit. -/
abbrev Digit := Fin 10

namespace Digit

/-- The digit zero. -/
def zero : Digit := ⟨0, by decide⟩

/-- The number that a list of digits spells after `high`. -/
def toNat (high : Nat) (digits : List Digit) : Nat :=
  digits.foldl (fun n d => 10 * n + d.val) high

/-- The digits of a number, in front of `low`. -/
def ofNatBefore (n : Nat) (low : List Digit) : List Digit :=
  if n < 10 then Fin.ofNat 10 n :: low else ofNatBefore (n / 10) (Fin.ofNat 10 n :: low)
termination_by n

/-- The digits of a number; zero has one. -/
def ofNat (n : Nat) : List Digit := ofNatBefore n []

end Digit

/-- The decimal `d.ddd × 10 ^ exponent`. -/
structure Decimal where
  /-- Significant digits, leading digit first. -/
  digits : List Digit
  /-- The power of ten of the leading digit. -/
  exponent : Int

namespace Decimal

/-- The decimal `n × 10 ^ exponent`, without trailing zeros. -/
def ofNat (n : Nat) (exponent : Int) : Decimal :=
  let digits := Digit.ofNat n
  ⟨(digits.reverse.dropWhile (· == 0)).reverse, exponent + (digits.length - 1 : Nat)⟩

/-- The part in front of the point and the digits after it. -/
def positional (d : Decimal) : Nat × List Digit :=
  if d.exponent < 0 then (0, List.replicate (d.exponent.natAbs - 1) 0 ++ d.digits)
  else
    let count := d.exponent.toNat + 1
    let whole := d.digits.take count ++ List.replicate (count - d.digits.length) 0
    (Digit.toNat 0 whole, d.digits.drop count)

end Decimal

end RoastTelemetry
