import RoastTelemetry.Binary.Rounding

/-!
# Floating-point values

Signed codes, the two infinities, and one NaN. What is computed from readings, rates and times never
depends on the sign or the payload of a NaN, so here all NaNs are one value: `ofBits` merges them,
and `toBits` gives the bits of one of them. Bit patterns appear in these two only. What is handed on
without being computed with, as a gain is, stays a word.
-/

namespace RoastTelemetry

/-- A value of format `f`. -/
inductive Binary (f : Format) where
  /-- No number. -/
  | nan
  /-- Beyond the largest finite value. -/
  | infinity (negative : Bool)
  /-- A sign and the code of a magnitude; zero has both signs. -/
  | finite (negative : Bool) (code : Fin f.infinityCode)
deriving DecidableEq

/-- Single precision: temperatures and rates. -/
abbrev Single := Binary .single

/-- Double precision: times, and the arithmetic of averages and slopes. -/
abbrev Double := Binary .double

namespace Binary

variable {f : Format}

/-- The value nearest to `n / d` units with the given sign. -/
def ofRatio (negative : Bool) (n d : Nat) : Binary f :=
  if h : f.nearestCode n d < f.infinityCode then .finite negative ⟨f.nearestCode n d, h⟩
  else .infinity negative

/-- The value nearest to a natural number. -/
def ofNat (n : Nat) : Binary f := ofRatio false (n * f.one) 1

/-- The value nearest to an integer; zero comes out positive. -/
def ofInt (i : Int) : Binary f := ofRatio (decide (i < 0)) (i.natAbs * f.one) 1

/-- The value nearest to `significand * 10 ^ exponent` with the given sign. -/
def ofDecimal (negative : Bool) (significand : Nat) (exponent : Int) : Binary f :=
  if 0 ≤ exponent then ofRatio negative (significand * Nat.pow 10 exponent.toNat * f.one) 1
  else ofRatio negative (significand * f.one) (Nat.pow 10 exponent.natAbs)

instance (n : Nat) : OfNat (Binary f) n := ⟨ofNat n⟩

instance : OfScientific (Binary f) where
  ofScientific significand below exponent :=
    ofDecimal false significand (if below then -(exponent : Int) else exponent)

instance : Inhabited (Binary f) := ⟨0⟩

/-- The value with the given sign, exponent and fraction fields. All NaNs become the one. -/
def ofBits (bits : Nat) : Binary f :=
  let negative := bits.testBit f.codeBits
  let code := bits % Nat.pow 2 f.codeBits
  if h : code < f.infinityCode then .finite negative ⟨code, h⟩
  else if code = f.infinityCode then .infinity negative
  else .nan

/-- The fields of a value as one natural number; NaN is positive and quiet. -/
def toBits : Binary f → Nat
  | .nan => f.infinityCode + Nat.pow 2 (f.fractionBits - 1)
  | .infinity negative => negative.toNat * Nat.pow 2 f.codeBits + f.infinityCode
  | .finite negative code => negative.toNat * Nat.pow 2 f.codeBits + code

/-- Whether a value is a number below infinity. -/
def isFinite : Binary f → Bool
  | .finite _ _ => true
  | _ => false

/-- Whether a value is no number. -/
def isNaN : Binary f → Bool
  | .nan => true
  | _ => false

/-- Whether a value is one of the two infinities. -/
def isInfinite : Binary f → Bool
  | .infinity _ => true
  | _ => false

/-- Whether a value is a zero of either sign. -/
def isZero : Binary f → Bool
  | .finite _ code => code.val == 0
  | _ => false

/-- The value of `x` in another format, rounded once; exact when the target is wider. -/
def convert (g : Format) : Binary f → Binary g
  | .nan => .nan
  | .infinity negative => .infinity negative
  | .finite negative code => ofRatio negative (f.units code * g.one) f.one

/-- A single-precision value in double precision, unchanged. -/
abbrev widen (x : Single) : Double := x.convert .double

/-- A double-precision value rounded to single precision. -/
abbrev narrow (x : Double) : Single := x.convert .single

end Binary

end RoastTelemetry
