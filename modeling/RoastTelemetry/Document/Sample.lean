import RoastTelemetry.Json.Printer
import RoastTelemetry.Json.Reader
import RoastTelemetry.Json.Record
import RoastTelemetry.Refusal
import RoastTelemetry.Sample

/-!
# Samples as documents

The device sends one object per tick. Keys that are not among the fields are passed over, absent
channels may be left out or null, and absent channels are not written.
-/

namespace RoastTelemetry

open Json

namespace Gain

/-- Writes a gain. -/
def toJson (g : Gain) : Value := .single g

/-- Reads a gain. -/
def ofJson? (v : Value) : Option Gain := v.single?.map ofValue

end Gain

namespace Sample

/-- The fields of a sample in order. -/
def fieldNames : List String :=
  ["timestamp", "beanTemp", "envTemp", "setpoint", "fanPWM", "heaterPWM", "controlMode",
    "heaterEnable", "rateOfRise", "Kp", "Ki", "Kd"]

/-- A flag, also as a number, as firmware sends it: zero is off, all else is on. -/
def flag? : Value → Option Bool
  | .bool b => some b
  | .number n => n.toDouble?.map fun x => !x.isZero
  | _ => none

/-- Writes a sample. -/
def toJson (s : Sample) : Value :=
  .record (("timestamp", .double s.timestamp)
    :: Value.present "beanTemp" .single s.beanTemp
    ++ Value.present "envTemp" .single s.envTemp
    ++ Value.present "setpoint" .single s.setpoint
    ++ Value.present "fanPWM" (.nat ·.toNat) s.fan
    ++ Value.present "heaterPWM" (.nat ·.toNat) s.heater
    ++ Value.present "controlMode" (.nat ·.toNat) s.mode
    ++ Value.present "heaterEnable" .bool s.heaterOn
    ++ Value.present "rateOfRise" .single s.rateOfRise
    ++ Value.present "Kp" Gain.toJson s.kp
    ++ Value.present "Ki" Gain.toJson s.ki
    ++ Value.present "Kd" Gain.toJson s.kd)

/-- The sample in a record; one without a time was taken at zero. -/
def ofRecord? (r : Record) : Option Sample := do
  let timestamp ← r.withDefault "timestamp" 0 Value.double?
  let beanTemp ← r.nullable "beanTemp" Value.single?
  let envTemp ← r.nullable "envTemp" Value.single?
  let setpoint ← r.nullable "setpoint" Value.single?
  let fan ← r.nullable "fanPWM" Value.uint16?
  let heater ← r.nullable "heaterPWM" Value.uint16?
  let mode ← r.nullable "controlMode" Value.uint8?
  let heaterOn ← r.nullable "heaterEnable" flag?
  let rateOfRise ← r.nullable "rateOfRise" Value.single?
  let kp ← r.nullable "Kp" Gain.ofJson?
  let ki ← r.nullable "Ki" Gain.ofJson?
  let kd ← r.nullable "Kd" Gain.ofJson?
  return { timestamp, beanTemp, envTemp, setpoint, fan, heater, mode, heaterOn, rateOfRise,
           kp, ki, kd }

/-- Reads a sample. -/
def ofJson? (v : Value) : Option Sample := (v.record? fieldNames).bind ofRecord?

/-- Reads a device payload. -/
def ofPayload (text : List UInt8) : Except Refusal Sample :=
  match (parse? text).bind ofJson? with
  | some s => .ok s
  | none => .error .malformedSample

end Sample

end RoastTelemetry
