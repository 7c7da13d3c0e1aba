/-!
# Binary floating-point formats

A format is two field widths. Below infinity, the exponent and fraction fields read together as
one natural number, the *code* of a magnitude, and codes are in the order of the magnitudes they
stand for: the next code is the next representable value, across binades and from the subnormals
into the normals alike. So rounding is a search for the nearest code, and every argument about
neighbours, ties and monotonicity is one about natural numbers.

Magnitudes are counted in *units*, the least positive value of the format. One is `2 ^ places`
units, and every finite value is a whole number of them.
-/

namespace RoastTelemetry

/-- The field widths of a binary interchange format. -/
structure Format where
  /-- Width of the fraction field. -/
  fractionBits : Nat
  /-- Width of the exponent field. -/
  exponentBits : Nat
  /-- A code and its fraction field have the same parity. -/
  fractionBits_pos : 0 < fractionBits := by decide
  /-- There is a binade between the subnormals and infinity. -/
  one_lt_exponentBits : 1 < exponentBits := by decide

namespace Format

/-- Thirty-two bits, about seven significant digits. -/
def single : Format where
  fractionBits := 23
  exponentBits := 8

/-- Sixty-four bits, about sixteen significant digits. -/
def double : Format where
  fractionBits := 52
  exponentBits := 11

/-- Width of a code: everything but the sign. -/
def codeBits (f : Format) : Nat := f.exponentBits + f.fractionBits

-- Powers are written as `Nat.pow` in definitions that run: with more of algebra in scope, `^` would
-- be another operation, although an equal one.

/-- The code with a full exponent field and no fraction; every finite code is below it. -/
def infinityCode (f : Format) : Nat :=
  (Nat.pow 2 f.exponentBits - 1) * Nat.pow 2 f.fractionBits

/-- Binary places after the point: the least positive value is `2 ^ (-places)`. -/
def places (f : Format) : Nat := Nat.pow 2 (f.exponentBits - 1) - 2 + f.fractionBits

/-- How many units make one. -/
def one (f : Format) : Nat := Nat.pow 2 f.places

/--
The magnitude of a code in units. A code without exponent is its own magnitude; any other carries
a leading bit in front of its fraction, shifted by one place per binade after the first. The same
rule at `infinityCode` gives the value that would follow the largest finite one.
-/
def units (f : Format) (code : Nat) : Nat :=
  let leading := Nat.pow 2 f.fractionBits
  if code < leading then code
  else (leading + code % leading) * Nat.pow 2 (code / leading - 1)

theorem one_pos (f : Format) : 0 < f.one := Nat.two_pow_pos _

theorem infinityCode_pos (f : Format) : 0 < f.infinityCode := by
  have hwidth := f.one_lt_exponentBits
  have h : 1 < Nat.pow 2 f.exponentBits := Nat.one_lt_two_pow (by omega)
  exact Nat.mul_pos (Nat.sub_pos_of_lt h) (Nat.two_pow_pos _)

end Format

end RoastTelemetry
