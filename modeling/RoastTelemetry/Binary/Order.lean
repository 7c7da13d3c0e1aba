import RoastTelemetry.Binary.Arithmetic

/-!
# Comparisons

A value's rank is its signed code, with the infinities at both ends. Zeros of either sign share
rank zero, and NaN has no rank, so it compares false with everything.
-/

namespace RoastTelemetry.Binary

variable {f : Format}

/-- Where a value stands on the line; nowhere for NaN. -/
def rank : Binary f → Option Int
  | .nan => none
  | .infinity negative => some (signed negative f.infinityCode)
  | .finite negative code => some (signed negative code)

/-- Strictly below; false when either side is NaN. -/
def lt (x y : Binary f) : Bool :=
  match x.rank, y.rank with
  | some a, some b => decide (a < b)
  | _, _ => false

/-- Below or numerically equal; false when either side is NaN. -/
def le (x y : Binary f) : Bool :=
  match x.rank, y.rank with
  | some a, some b => decide (a ≤ b)
  | _, _ => false

instance : LT (Binary f) := ⟨fun x y => x.lt y = true⟩
instance : LE (Binary f) := ⟨fun x y => x.le y = true⟩

instance (x y : Binary f) : Decidable (x < y) := inferInstanceAs (Decidable (x.lt y = true))
instance (x y : Binary f) : Decidable (x ≤ y) := inferInstanceAs (Decidable (x.le y = true))

/-- The larger of two values; a NaN gives way to the other one. -/
def max (x y : Binary f) : Binary f :=
  if x.isNaN then y else if y.isNaN then x else if x < y then y else x

/-- The smaller of two values; a NaN gives way to the other one. -/
def min (x y : Binary f) : Binary f :=
  if x.isNaN then y else if y.isNaN then x else if y < x then y else x

end RoastTelemetry.Binary
