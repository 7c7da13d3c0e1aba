import RoastTelemetry.Rise.Estimate
import RoastTelemetry.Rise.Smoothing
import RoastTelemetry.Rise.SpikeBand

/-!
# From temperatures to the displayed rate of rise

Estimates, without their spikes, smoothed, in this order. What is displayed at a point has the
time and temperature of a point of the curve.
-/

namespace RoastTelemetry

/-- How the rate of rise is computed. -/
structure RiseSettings where
  /-- How slopes are taken. -/
  method : RiseMethod := .windowedDifference
  /-- Intervals per window. -/
  window : UInt64 := 5
  /-- The weight of the newest rate in smoothing; with weight one nothing is smoothed. -/
  alpha : Single := 0.3
  /-- Credible rates; without a band spikes are left alone. -/
  band : Option SpikeBand := some SpikeBand.default
deriving DecidableEq

/-- Refuses an empty window, a weight outside `(0, 1]`, and a band that is none. -/
def RiseSettings.validate (s : RiseSettings) : Except Refusal Unit :=
  if s.window = 0 then .error (.window s.window.toNat)
  else if ¬(0 < s.alpha ∧ s.alpha ≤ 1) then .error (.smoothing s.alpha)
  else match s.band with
    | some band => band.validate
    | none => .ok ()

/-- The computation with settings that are valid. -/
structure RisePipeline where
  /-- The settings. -/
  settings : RiseSettings
  /-- They are valid. -/
  valid : settings.validate = .ok ()

namespace RisePipeline

/-- The computation with the given settings, if they are valid. -/
def ofSettings (settings : RiseSettings) : Except Refusal RisePipeline :=
  match h : settings.validate with
  | .ok () => .ok ⟨settings, h⟩
  | .error refusal => .error refusal

/-- The displayed rate of rise along a curve. -/
def rates (p : RisePipeline) (points : List TemperaturePoint) : List RatePoint :=
  let raw := Rise.estimate p.settings.method p.settings.window.toNat points
  let despiked := match p.settings.band with
    | some band => Rise.despike band raw
    | none => raw
  Rise.smooth p.settings.alpha despiked

end RisePipeline

/-- The displayed rate of rise along a curve, if the settings are valid. -/
def RiseSettings.rates (settings : RiseSettings) (points : List TemperaturePoint) :
    Except Refusal (List RatePoint) :=
  (RisePipeline.ofSettings settings).map (·.rates points)

end RoastTelemetry
