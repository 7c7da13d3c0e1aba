import RoastTelemetry.Binary.Basic

/-!
# Arithmetic

The exact result first, then one rounding. The sign of a zero is the one thing an exact result
does not determine: products and quotients multiply signs, and a sum that vanishes is positive
unless both terms were negative.
-/

namespace RoastTelemetry.Binary

variable {f : Format}

/-- A magnitude with its sign. -/
def signed (negative : Bool) (magnitude : Nat) : Int :=
  if negative then -(magnitude : Int) else magnitude

/-- The value with the opposite sign. -/
def neg : Binary f → Binary f
  | .nan => .nan
  | .infinity negative => .infinity (!negative)
  | .finite negative code => .finite (!negative) code

/-- The value without its sign. -/
def abs : Binary f → Binary f
  | .nan => .nan
  | .infinity _ => .infinity false
  | .finite _ code => .finite false code

/-- The rounded sum; opposite infinities have none. -/
def add : Binary f → Binary f → Binary f
  | .nan, _ => .nan
  | _, .nan => .nan
  | .infinity a, .infinity b => if a = b then .infinity a else .nan
  | .infinity a, .finite _ _ => .infinity a
  | .finite _ _, .infinity b => .infinity b
  | .finite a x, .finite b y =>
    let sum := signed a (f.units x) + signed b (f.units y)
    ofRatio (if sum = 0 then a && b else decide (sum < 0)) sum.natAbs 1

/-- The rounded difference. -/
def sub (x y : Binary f) : Binary f := x.add y.neg

/-- The rounded product; zero times infinity has none. -/
def mul : Binary f → Binary f → Binary f
  | .nan, _ => .nan
  | _, .nan => .nan
  | .infinity a, .infinity b => .infinity (a ^^ b)
  | .infinity a, .finite b y => if y.val = 0 then .nan else .infinity (a ^^ b)
  | .finite a x, .infinity b => if x.val = 0 then .nan else .infinity (a ^^ b)
  | .finite a x, .finite b y => ofRatio (a ^^ b) (f.units x * f.units y) f.one

/-- The rounded quotient; zero over zero and infinity over infinity have none. -/
def div : Binary f → Binary f → Binary f
  | .nan, _ => .nan
  | _, .nan => .nan
  | .infinity _, .infinity _ => .nan
  | .infinity a, .finite b _ => .infinity (a ^^ b)
  | .finite a _, .infinity b => ofRatio (a ^^ b) 0 1
  | .finite a x, .finite b y =>
    if y.val = 0 then if x.val = 0 then .nan else .infinity (a ^^ b)
    else ofRatio (a ^^ b) (f.units x * f.one) (f.units y)

/-- The nearest integer, a half going away from zero; the sign stays, also on zero. -/
def round : Binary f → Binary f
  | .finite negative code => ofRatio negative (roundHalfUp (f.units code) f.one * f.one) 1
  | x => x

instance : Neg (Binary f) := ⟨neg⟩
instance : Add (Binary f) := ⟨add⟩
instance : Sub (Binary f) := ⟨sub⟩
instance : Mul (Binary f) := ⟨mul⟩
instance : Div (Binary f) := ⟨div⟩

/-- The sum in list order, from zero. -/
def sum (xs : List (Binary f)) : Binary f := xs.foldl (· + ·) 0

/-- The mean in list order; NaN of no values. -/
def mean (xs : List (Binary f)) : Binary f := sum xs / ofNat xs.length

end RoastTelemetry.Binary
