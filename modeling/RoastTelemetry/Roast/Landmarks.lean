import RoastTelemetry.Curve

/-!
# Landmarks of a roast

Times on a curve that matter to a roaster. Each is the first time at which the beans reach a
threshold, however they behave afterwards, unless somebody marked the event by hand.
-/

namespace RoastTelemetry

/-- The temperatures in °C that mark the landmarks. -/
structure Thresholds where
  /-- The beans have turned from green to yellow. -/
  dryEnd : Single := 160
  /-- The beans crack, and development begins. -/
  firstCrack : Single := 196
  /-- Oils come to the surface. -/
  secondCrack : Single := 224
deriving DecidableEq

/-- Times of the landmarks in seconds; one that is not known is absent. -/
structure Landmarks where
  /-- The end of drying. -/
  dryEnd : Option Double := none
  /-- First crack. -/
  firstCrack : Option Double := none
  /-- Second crack. -/
  secondCrack : Option Double := none
  /-- The start of development. -/
  developmentStart : Option Double := none
  /-- The end of the roast. -/
  drop : Option Double := none
deriving DecidableEq

namespace Landmarks

/-- The landmarks of `a`, and those of `b` where `a` has none. -/
def or (a b : Landmarks) : Landmarks where
  dryEnd := a.dryEnd.or b.dryEnd
  firstCrack := a.firstCrack.or b.firstCrack
  secondCrack := a.secondCrack.or b.secondCrack
  developmentStart := a.developmentStart.or b.developmentStart
  drop := a.drop.or b.drop

/-- When a curve first reaches a temperature. -/
def reached? (curve : List TemperaturePoint) (threshold : Single) : Option Double :=
  (curve.find? fun p => decide (threshold ≤ p.temperature)).map (·.time)

/--
The landmarks of a curve. What was marked by hand stands. Development starts with first crack,
also when that was marked, and the curve ends with the drop.
-/
def ofCurve (curve : List TemperaturePoint) (marked : Landmarks) (thresholds : Thresholds) :
    Landmarks :=
  let firstCrack := marked.firstCrack.or (reached? curve thresholds.firstCrack)
  marked.or {
    dryEnd := reached? curve thresholds.dryEnd
    firstCrack
    secondCrack := reached? curve thresholds.secondCrack
    developmentStart := firstCrack
    drop := curve.getLast?.map (·.time) }

end Landmarks

end RoastTelemetry
