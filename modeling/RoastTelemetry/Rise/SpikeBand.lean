import RoastTelemetry.Curve
import RoastTelemetry.Refusal

/-!
# Suppressing spikes

A probe that drops out for one tick shows up as a rate of hundreds of degrees. Clamping into a
band of credible rates bounds the damage; a median over three neighbours then removes what is left
of a single bad point.
-/

namespace RoastTelemetry

/-- Credible rates in °C per minute. -/
structure SpikeBand where
  /-- The least credible rate. -/
  low : Single
  /-- The largest one. -/
  high : Single
deriving DecidableEq

namespace SpikeBand

/-- Beans do not cool faster in the drum, and do not heat up faster past the turning point. -/
def default : SpikeBand := ⟨Binary.neg 30, 60⟩

/-- Refuses bounds that are not finite or in the wrong order. -/
def validate (b : SpikeBand) : Except Refusal Unit :=
  if b.low.isFinite && b.high.isFinite && b.low ≤ b.high then .ok ()
  else .error (.spikeBand b.low b.high)

/-- The nearest rate within the band; NaN becomes the lower bound. -/
def clamp (b : SpikeBand) (x : Single) : Single := (x.max b.low).min b.high

end SpikeBand

namespace Rise

/-- The middle one of three rates. -/
def median (a b c : Single) : Single := (a.max b).min ((a.min b).max c)

/-- Replaces each rate that has two neighbours by the median of the three. -/
def medianFrom (before : Option RatePoint) : List RatePoint → List RatePoint
  | [] => []
  | [p] => [p]
  | p :: q :: rest =>
    { p with rate := (before.map fun b => median b.rate p.rate q.rate).getD p.rate }
      :: medianFrom (some p) (q :: rest)

@[simp]
theorem length_medianFrom (before : Option RatePoint) (points : List RatePoint) :
    (medianFrom before points).length = points.length := by
  induction points generalizing before with
  | nil => rfl
  | cons p rest ih =>
    cases rest with
    | nil => rfl
    | cons q rest => simp [medianFrom, ih]

/-- Clamps all rates into a band and takes the median of each with its two neighbours. -/
def despike (band : SpikeBand) (points : List RatePoint) : List RatePoint :=
  medianFrom none (points.map fun p => { p with rate := band.clamp p.rate })

@[simp]
theorem length_despike (band : SpikeBand) (points : List RatePoint) :
    (despike band points).length = points.length := by
  simp [despike]

end Rise

end RoastTelemetry
