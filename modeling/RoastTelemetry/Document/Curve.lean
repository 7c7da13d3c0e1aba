import RoastTelemetry.Curve
import RoastTelemetry.Json.Record

/-!
# Points of curves as documents
-/

namespace RoastTelemetry

open Json

namespace TemperaturePoint

/-- Writes a point. -/
def toJson (p : TemperaturePoint) : Value :=
  .record [("time", .double p.time), ("temperature", .single p.temperature)]

/-- Reads a point. -/
def ofJson? (v : Value) : Option TemperaturePoint := do
  let r ← v.record? ["time", "temperature"]
  let time ← r.required "time" Value.double?
  let temperature ← r.required "temperature" Value.single?
  return { time, temperature }

end TemperaturePoint

namespace RatePoint

/-- Writes a point. -/
def toJson (p : RatePoint) : Value :=
  .record
    [("time", .double p.time), ("temperature", .single p.temperature), ("ror", .single p.rate)]

/-- Reads a point. -/
def ofJson? (v : Value) : Option RatePoint := do
  let r ← v.record? ["time", "temperature", "ror"]
  let time ← r.required "time" Value.double?
  let temperature ← r.required "temperature" Value.single?
  let rate ← r.required "ror" Value.single?
  return { time, temperature, rate }

end RatePoint

end RoastTelemetry
