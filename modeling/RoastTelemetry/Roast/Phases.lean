import RoastTelemetry.Roast.Landmarks

/-!
# The rate of rise by phase

Drying ends where browning begins, and browning where development does. A phase without a point
reports the mean of the whole roast: zero would read as a roast that stalled.
-/

namespace RoastTelemetry

/-- Statistics of the rate of rise. -/
structure PhaseStats where
  /-- The mean while drying. -/
  dryMean : Single := 0
  /-- The mean while browning. -/
  maillardMean : Single := 0
  /-- The mean while developing. -/
  developmentMean : Single := 0
  /-- The mean over everything. -/
  overallMean : Single := 0
  /-- The largest rate. -/
  max : Single := 0
  /-- The smallest rate. -/
  min : Single := 0
  /-- How many rates there are. -/
  sampleCount : UInt64 := 0
deriving DecidableEq

namespace PhaseStats

/-- The mean of the rates in list order; none of no rates. -/
def mean? (points : List RatePoint) : Option Single :=
  if points.isEmpty then none
  else some (Binary.mean (points.map fun (p : RatePoint) => p.rate.widen)).narrow

/-- Whether a point lies before the end of drying. -/
def isDry (l : Landmarks) (p : RatePoint) : Bool :=
  match l.dryEnd with
  | some dryEnd => decide (p.time < dryEnd)
  | none => false

/-- Whether a point lies between the end of drying and first crack. -/
def isMaillard (l : Landmarks) (p : RatePoint) : Bool :=
  match l.dryEnd, l.firstCrack with
  | some dryEnd, some firstCrack => decide (dryEnd ≤ p.time) && decide (p.time < firstCrack)
  | _, _ => false

/-- Whether a point lies between first crack and the drop, if there is one. -/
def isDevelopment (l : Landmarks) (p : RatePoint) : Bool :=
  match l.firstCrack with
  | some firstCrack =>
    decide (firstCrack ≤ p.time)
      && match l.drop with
        | some drop => decide (p.time ≤ drop)
        | none => true
  | none => false

/-- The statistics of rates by the phases that landmarks bound. -/
def ofRates (points : List RatePoint) (l : Landmarks) : PhaseStats :=
  match mean? points with
  | none => {}
  | some overallMean =>
    { dryMean := (mean? (points.filter (isDry l))).getD overallMean
      maillardMean := (mean? (points.filter (isMaillard l))).getD overallMean
      developmentMean := (mean? (points.filter (isDevelopment l))).getD overallMean
      overallMean
      max := points.foldl (fun m p => m.max p.rate) (.infinity true)
      min := points.foldl (fun m p => m.min p.rate) (.infinity false)
      sampleCount := UInt64.ofNat points.length }

end PhaseStats

end RoastTelemetry
