import RoastTelemetry.Decimal.Shortest

/-!
# Plain text of a value

How values appear in messages: shortest digits, always positional, a point only in front of a
fraction.
-/

namespace RoastTelemetry

/-- The character of a digit. -/
def Digit.toChar (d : Digit) : Char := Char.ofNat (d + '0'.toNat)

/-- The text of a list of digits. -/
def Digit.text (digits : List Digit) : String := String.ofList (digits.map Digit.toChar)

/-- The decimal text of a natural number. -/
def Digit.natText (n : Nat) : String := Digit.text (Digit.ofNat n)

namespace Binary

variable {f : Format}

/-- The text of a magnitude, without exponent. -/
def plainMagnitude (code : Nat) : String :=
  if code = 0 then "0"
  else
    let (whole, fraction) := (f.shortest .up code).positional
    Digit.natText whole ++ if fraction.isEmpty then "" else "." ++ Digit.text fraction

/-- The text of a value in a message. -/
def plainText : Binary f → String
  | .nan => "NaN"
  | .infinity negative => if negative then "-inf" else "inf"
  | .finite negative code => (if negative then "-" else "") ++ plainMagnitude (f := f) code

end Binary

end RoastTelemetry
