import RoastTelemetry.Settings
import RoastTelemetry.Json.Printer
import RoastTelemetry.Json.Reader
import RoastTelemetry.Json.Record

/-!
# Settings as documents

Every setting that a document leaves out has its default, at any depth. The spike band alone may
be null, which is another thing than leaving it out: there is no band then.
-/

namespace RoastTelemetry

open Json

namespace RiseMethod

/-- The name of a method. -/
def name : RiseMethod → String
  | .windowedDifference => "windowed_difference"
  | .linearRegression => "linear_regression"

/-- The method of a name. -/
def ofName? (s : String) : Option RiseMethod :=
  if s = windowedDifference.name then some .windowedDifference
  else if s = linearRegression.name then some .linearRegression
  else none

/-- Writes a method. -/
def toJson (m : RiseMethod) : Value := .text m.name

/-- Reads a method: its name, or an object with the name as its one key and nothing to it. -/
def ofJson? : Value → Option RiseMethod
  | .string s => s.decode?.bind ofName?
  | .object [(key, .null)] => key.decode?.bind ofName?
  | _ => none

end RiseMethod

namespace SpikeBand

/-- Writes a band. -/
def toJson (b : SpikeBand) : Value := .record [("min", .single b.low), ("max", .single b.high)]

/-- Reads a band. -/
def ofJson? (v : Value) : Option SpikeBand := do
  let r ← v.record? ["min", "max"]
  let low ← r.required "min" Value.single?
  let high ← r.required "max" Value.single?
  return { low, high }

end SpikeBand

namespace RiseSettings

/-- Writes settings. -/
def toJson (s : RiseSettings) : Value :=
  .record [("method", s.method.toJson), ("window_size", .nat s.window.toNat),
    ("smoothing_alpha", .single s.alpha), ("spike_band", .option SpikeBand.toJson s.band)]

/-- Reads settings. -/
def ofJson? (v : Value) : Option RiseSettings := do
  let d : RiseSettings := {}
  let r ← v.record? ["method", "window_size", "smoothing_alpha", "spike_band"]
  let method ← r.withDefault "method" d.method RiseMethod.ofJson?
  let window ← r.withDefault "window_size" d.window Value.uint64?
  let alpha ← r.withDefault "smoothing_alpha" d.alpha Value.single?
  let band ← r.withDefault "spike_band" d.band (Value.option? SpikeBand.ofJson?)
  return { method, window, alpha, band }

end RiseSettings

namespace Thinning

/-- Writes settings. -/
def toJson (t : Thinning) : Value :=
  .record [("max_points", .nat t.maxPoints.toNat), ("change_threshold", .single t.changeThreshold)]

/-- Reads settings. -/
def ofJson? (v : Value) : Option Thinning := do
  let d : Thinning := {}
  let r ← v.record? ["max_points", "change_threshold"]
  let maxPoints ← r.withDefault "max_points" d.maxPoints Value.uint64?
  let changeThreshold ← r.withDefault "change_threshold" d.changeThreshold Value.single?
  return { maxPoints, changeThreshold }

end Thinning

namespace Thresholds

/-- Writes thresholds. -/
def toJson (t : Thresholds) : Value :=
  .record [("dry_end", .single t.dryEnd), ("first_crack", .single t.firstCrack),
    ("second_crack", .single t.secondCrack)]

/-- Reads thresholds. -/
def ofJson? (v : Value) : Option Thresholds := do
  let d : Thresholds := {}
  let r ← v.record? ["dry_end", "first_crack", "second_crack"]
  let dryEnd ← r.withDefault "dry_end" d.dryEnd Value.single?
  let firstCrack ← r.withDefault "first_crack" d.firstCrack Value.single?
  let secondCrack ← r.withDefault "second_crack" d.secondCrack Value.single?
  return { dryEnd, firstCrack, secondCrack }

end Thresholds

namespace Settings

/-- Writes settings. -/
def toJson (s : Settings) : Value :=
  .record [("buffer_capacity", .nat s.bufferCapacity.toNat), ("precision", .double s.precision),
    ("thinning", s.thinning.toJson), ("ror", s.rise.toJson), ("landmarks", s.thresholds.toJson)]

/-- Reads settings, valid or not. -/
def ofJson? (v : Value) : Option Settings := do
  let d : Settings := {}
  let r ← v.record? ["buffer_capacity", "precision", "thinning", "ror", "landmarks"]
  let bufferCapacity ← r.withDefault "buffer_capacity" d.bufferCapacity Value.uint64?
  let precision ← r.withDefault "precision" d.precision Value.double?
  let thinning ← r.withDefault "thinning" d.thinning Thinning.ofJson?
  let rise ← r.withDefault "ror" d.rise RiseSettings.ofJson?
  let thresholds ← r.withDefault "landmarks" d.thresholds Thresholds.ofJson?
  return { bufferCapacity, precision, thinning, rise, thresholds }

/-- Reads a settings document and checks what it says. -/
def ofText (text : List UInt8) : Except Refusal Settings :=
  match (parse? text).bind ofJson? with
  | none => .error .malformedSettings
  | some s => s.validate.map fun _ => s

end Settings

end RoastTelemetry
