import RoastTelemetry.Binary.Arithmetic
import RoastTelemetry.Decimal.Shortest

/-!
# Numbers as they are written

A number in a document is kept as its digits; what it is worth depends on who reads it. Whole
numbers of sixty-four bits are read exactly. Everything else is read in double precision by
scaling: as many leading digits as fit sixty-four bits become the significand, which is then
multiplied or divided once by a power of ten. The result may miss the nearest value by its last
bit, and a document's meaning is this result.
-/

namespace RoastTelemetry.Json

/-- A number as written. -/
structure Number where
  /-- Whether it starts with a minus sign. -/
  negative : Bool
  /-- The digits in front of the point, which never start with a spare zero. -/
  whole : Nat
  /-- The digits after the point; without any there is no point. -/
  fraction : List Digit
  /-- The power of ten, if one is written. -/
  exponent : Option Int
deriving DecidableEq

namespace Number

/-- The largest significand. -/
def maxSignificand : Nat := UInt64.size - 1

/-- Appends digits to a significand as long as they fit; gives the digits that are left. -/
def absorb (significand : Nat) : List Digit → Nat × List Digit
  | [] => (significand, [])
  | d :: rest =>
    if 10 * significand + d.val ≤ maxSignificand then absorb (10 * significand + d.val) rest
    else (significand, d :: rest)

/-- The largest power of ten that is applied in one step. -/
def maxPowerOfTen : Nat := 308

/-- A power of ten in double precision. -/
def powerOfTen (k : Nat) : Double := Binary.ofNat (Nat.pow 10 k)

/--
A nonnegative value times `10 ^ exponent`. Beyond the largest finite value there is none. A value
that is scaled down too far for one step is scaled down step by step until nothing is left.
-/
def scale? (x : Double) (exponent : Int) : Option Double :=
  if exponent.natAbs ≤ maxPowerOfTen then
    if 0 ≤ exponent then
      let y := x * powerOfTen exponent.natAbs
      if y.isInfinite then none else some y
    else some (x / powerOfTen exponent.natAbs)
  else if x.isZero then some x
  else if 0 ≤ exponent then none
  else scale? (x / powerOfTen maxPowerOfTen) (exponent + maxPowerOfTen)
termination_by exponent.natAbs
decreasing_by simp only [maxPowerOfTen] at *; omega

/-- The value in double precision; none beyond the largest finite value. -/
def toDouble? (n : Number) : Option Double :=
  let (significand, left) := absorb 0 (Digit.ofNat n.whole)
  let (significand, unused) := absorb significand n.fraction
  let used : Int := n.fraction.length - unused.length
  let exponent := left.length - used + n.exponent.getD 0
  (scale? (Binary.ofNat significand) exponent).map fun x => if n.negative then -x else x

/-- The value of a whole number of at most sixty-four bits; minus zero is none. -/
def toInt? (n : Number) : Option Int :=
  if n.fraction.isEmpty && n.exponent.isNone && !(n.negative && n.whole == 0) then
    let i := Binary.signed n.negative n.whole
    if Int64.minValue.toInt ≤ i && i < UInt64.size then some i else none
  else none

/--
The value in single precision. Whole numbers are rounded once; other numbers are rounded to double
precision on the way, and values beyond the largest finite one become infinite.
-/
def toSingle? (n : Number) : Option Single :=
  match n.toInt? with
  | some i => some (Binary.ofInt i)
  | none => n.toDouble?.map Binary.narrow

/-- The value of a nonnegative whole number below `bound`. -/
def toNatBelow? (bound : Nat) (n : Number) : Option Nat :=
  match n.toInt? with
  | some i => if 0 ≤ i && i < bound then some i.toNat else none
  | none => none

/-- A natural number, written in digits. -/
def ofNat (n : Nat) : Number := ⟨false, n, [], none⟩

/-- The powers of ten for which a value is written without exponent. -/
structure FixedRange where
  /-- The least power of ten of the leading digit. -/
  low : Int
  /-- The largest one. -/
  high : Int

/-- Single-precision values from a millionth up to thirteen whole digits have no exponent. -/
def singleFixed : FixedRange := ⟨-6, 12⟩

/-- Double-precision values from a hundred-thousandth up to sixteen whole digits have none. -/
def doubleFixed : FixedRange := ⟨-5, 15⟩

/-- A decimal, written with at least one digit after the point or with an exponent. -/
def ofDecimal (range : FixedRange) (negative : Bool) (d : Decimal) : Number :=
  if range.low ≤ d.exponent && d.exponent ≤ range.high then
    let (whole, fraction) := d.positional
    ⟨negative, whole, if fraction.isEmpty then [Digit.zero] else fraction, none⟩
  else ⟨negative, Digit.toNat 0 (d.digits.take 1), d.digits.drop 1, some d.exponent⟩

/-- A finite value in its shortest digits; NaN and the infinities cannot be written. -/
def ofBinary? {f : Format} (range : FixedRange) : Binary f → Option Number
  | .finite negative code =>
    if code.val = 0 then some ⟨negative, 0, [Digit.zero], none⟩
    else some (ofDecimal range negative (f.shortest .even code))
  | _ => none

end Number

end RoastTelemetry.Json
