import RoastTelemetry.Curve

/-!
# Estimating the rate of rise

Each estimate looks back over a window of `w` intervals from a point, so the first one belongs to
the point at position `w`. A window over which time does not pass gives no estimate and is
skipped; an estimate that is no finite single-precision number is dropped.
-/

namespace RoastTelemetry

/-- How a slope is taken from a window. -/
inductive RiseMethod where
  /-- Between the two ends of the window. -/
  | windowedDifference
  /-- Least squares over all points of the window. -/
  | linearRegression
deriving DecidableEq

namespace Rise

/-- Seconds per minute. -/
def secondsPerMinute : Double := 60

/-- A spread of times, in square seconds, at or below which a regression has no slope. -/
def minVariance : Double := 1e-9

/-- The rate between two points in °C per minute; none if time does not pass between them. -/
def differenceRate? (start stop : TemperaturePoint) : Option Double :=
  let elapsed := stop.time - start.time
  if elapsed ≤ 0 then none
  else some ((stop.temperature - start.temperature).widen / (elapsed / secondsPerMinute))

/--
The least-squares slope through a window in °C per second. Times and temperatures are centred on
their means first, which keeps the sums small when times are large. None if the window has a
single point, or times with no spread.
-/
def slope? (window : List TemperaturePoint) : Option Double :=
  if window.length < 2 then none
  else
    let meanTime := Binary.mean (window.map (·.time))
    let meanTemperature := Binary.mean (window.map (·.temperature.widen))
    let spread := Binary.sum (window.map fun p =>
      (p.time - meanTime) * (p.time - meanTime))
    let common := Binary.sum (window.map fun p =>
      (p.time - meanTime) * (p.temperature.widen - meanTemperature))
    if spread ≤ minVariance then none else some (common / spread)

/-- The regression rate over a window in °C per minute. -/
def regressionRate? (window : List TemperaturePoint) : Option Double :=
  (slope? window).map (· * secondsPerMinute)

/-- The windows of `w` intervals, in order. -/
def windows (w : Nat) (points : List TemperaturePoint) : List (List TemperaturePoint) :=
  (List.range (points.length - w)).map fun i => (points.drop i).take (w + 1)

/-- For each point that ends a window, the point and the rate over the window. -/
def rates (method : RiseMethod) (w : Nat) (points : List TemperaturePoint) :
    List (TemperaturePoint × Option Double) :=
  match method with
  | .windowedDifference =>
    (points.zip (points.drop w)).map fun (start, stop) => (stop, differenceRate? start stop)
  | .linearRegression =>
    ((points.drop w).zip (windows w points)).map
      fun (stop, window) => (stop, regressionRate? window)

/-- A point with its rate, if that is a finite single-precision number. -/
def ratePoint? (p : TemperaturePoint) (rate : Double) : Option RatePoint :=
  if rate.narrow.isFinite then some ⟨p.time, p.temperature, rate.narrow⟩ else none

/-- The rate of rise at each point that ends a window with a usable rate. -/
def estimate (method : RiseMethod) (w : Nat) (points : List TemperaturePoint) : List RatePoint :=
  (rates method w points).filterMap fun (p, rate) => rate.bind (ratePoint? p)

/-- How many windows were skipped. -/
def skipped (method : RiseMethod) (w : Nat) (points : List TemperaturePoint) : Nat :=
  (rates method w points).countP fun (_, rate) => rate.isNone

end Rise

end RoastTelemetry
