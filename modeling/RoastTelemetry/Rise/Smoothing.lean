import RoastTelemetry.Curve

/-!
# Smoothing

What is shown at a point is a weighted mean of its own rate and what was shown before it.
-/

namespace RoastTelemetry.Rise

/-- Smooths rates that follow the smoothed rate `before`. -/
def smoothFrom (alpha : Single) (before : Single) : List RatePoint → List RatePoint
  | [] => []
  | p :: rest =>
    let rate := alpha * p.rate + (1 - alpha) * before
    { p with rate } :: smoothFrom alpha rate rest

@[simp]
theorem length_smoothFrom (alpha before : Single) (points : List RatePoint) :
    (smoothFrom alpha before points).length = points.length := by
  induction points generalizing before with
  | nil => rfl
  | cons p rest ih => simp [smoothFrom, ih]

/-- Smooths rates exponentially; the first one stays. -/
def smooth (alpha : Single) : List RatePoint → List RatePoint
  | [] => []
  | p :: rest => p :: smoothFrom alpha p.rate rest

@[simp]
theorem length_smooth (alpha : Single) (points : List RatePoint) :
    (smooth alpha points).length = points.length := by
  cases points with
  | nil => rfl
  | cons p rest => simp [smooth]

end RoastTelemetry.Rise
