import RoastTelemetry.Sample

/-!
# Curves

Temperatures over time, and the rate at which they rise.
-/

namespace RoastTelemetry

/-- A temperature at some time. -/
structure TemperaturePoint where
  /-- Time in seconds. -/
  time : Double
  /-- Temperature in °C. -/
  temperature : Single
deriving DecidableEq

instance : Timestamped TemperaturePoint := ⟨TemperaturePoint.time⟩

/-- A temperature at some time and the rate of rise there. -/
structure RatePoint where
  /-- Time in seconds. -/
  time : Double
  /-- Temperature in °C. -/
  temperature : Single
  /-- Rate of rise in °C per minute. -/
  rate : Single
deriving DecidableEq

instance : Timestamped RatePoint := ⟨RatePoint.time⟩

/-- The bean temperature of a sample as a point, if it was read. -/
def Sample.beanPoint? (s : Sample) : Option TemperaturePoint :=
  s.beanTemp.map fun t => ⟨s.timestamp, t⟩

/--
The bean temperatures of a history over the seconds since its first sample. The clock starts with
the first sample whether or not that one has a bean temperature.
-/
def beanCurve : List Sample → List TemperaturePoint
  | [] => []
  | first :: rest =>
    ((first :: rest).filterMap Sample.beanPoint?).map
      fun p => { p with time := p.time - first.timestamp }

end RoastTelemetry
