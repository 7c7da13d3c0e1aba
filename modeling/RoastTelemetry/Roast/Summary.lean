import RoastTelemetry.Roast.Landmarks

/-!
# The summary of a roast

Computed once, when a roast is over, and stored beside it. Times are seconds since the first
sample.
-/

namespace RoastTelemetry

/-- The summary of a roast. -/
structure Summary where
  /-- The highest bean temperature in °C. -/
  maxBeanTemp : Option Single := none
  /-- Seconds from the first to the last sample. -/
  totalTime : Option Double := none
  /-- When first crack was. -/
  firstCrack : Option Double := none
  /-- The share of the roast after first crack. -/
  developmentRatio : Option Single := none
deriving DecidableEq

namespace Summary

/-- The largest of some temperatures. -/
def maximum? : List Single → Option Single
  | [] => none
  | t :: rest => some (rest.foldl Binary.max t)

/-- The share of a roast after first crack, for a first crack within a roast of some length. -/
def ratio? (total firstCrack : Double) : Option Single :=
  if 0 < total ∧ 0 ≤ firstCrack ∧ firstCrack ≤ total then
    some ((total - firstCrack) / total).narrow
  else none

/-- Summarises a history; a first crack marked by hand stands. -/
def ofSamples (samples : List Sample) (marked : Option Double) (thresholds : Thresholds) :
    Summary :=
  match samples.head?, samples.getLast? with
  | some first, some last =>
    let total := last.timestamp - first.timestamp
    let landmarks := Landmarks.ofCurve (beanCurve samples) { firstCrack := marked } thresholds
    { maxBeanTemp := maximum? (samples.filterMap Sample.beanTemp)
      totalTime := some total
      firstCrack := landmarks.firstCrack
      developmentRatio := landmarks.firstCrack.bind (ratio? total) }
  | _, _ => {}

end Summary

end RoastTelemetry
