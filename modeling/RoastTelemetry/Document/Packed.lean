import RoastTelemetry.Delta.Packed
import RoastTelemetry.Document.Sample

/-!
# Packed samples and chain states as documents

Packed samples have short keys, since they go over the wire.
-/

namespace RoastTelemetry

open Json

namespace Packed

/-- The fields of a packed sample in order. -/
def fieldNames : List String :=
  ["t", "bt", "et", "sp", "fan", "ht", "m", "he", "ror", "kp", "ki", "kd"]

/-- Writes a packed sample. -/
def toJson (p : Packed) : Value :=
  .record (("t", .double p.offset)
    :: Value.present "bt" .single p.beanTemp
    ++ Value.present "et" .single p.envTemp
    ++ Value.present "sp" .single p.setpoint
    ++ Value.present "fan" (.nat ·.toNat) p.fan
    ++ Value.present "ht" (.nat ·.toNat) p.heater
    ++ Value.present "m" (.nat ·.toNat) p.mode
    ++ Value.present "he" .bool p.heaterOn
    ++ Value.present "ror" .single p.rateOfRise
    ++ Value.present "kp" Gain.toJson p.kp
    ++ Value.present "ki" Gain.toJson p.ki
    ++ Value.present "kd" Gain.toJson p.kd)

/-- Reads a packed sample. -/
def ofJson? (v : Value) : Option Packed := do
  let r ← v.record? fieldNames
  let offset ← r.required "t" Value.double?
  let beanTemp ← r.nullable "bt" Value.single?
  let envTemp ← r.nullable "et" Value.single?
  let setpoint ← r.nullable "sp" Value.single?
  let fan ← r.nullable "fan" Value.uint16?
  let heater ← r.nullable "ht" Value.uint16?
  let mode ← r.nullable "m" Value.uint8?
  let heaterOn ← r.nullable "he" Value.bool?
  let rateOfRise ← r.nullable "ror" Value.single?
  let kp ← r.nullable "kp" Gain.ofJson?
  let ki ← r.nullable "ki" Gain.ofJson?
  let kd ← r.nullable "kd" Gain.ofJson?
  return { offset, beanTemp, envTemp, setpoint, fan, heater, mode, heaterOn, rateOfRise,
           kp, ki, kd }

/-- Writes a batch. -/
def batchToJson (batch : List Packed) : Value := .list toJson batch

/-- Reads a batch. -/
def batchOfJson? : Value → Option (List Packed) := Value.list? ofJson?

end Packed

namespace ChainState

/-- Writes a chain state. -/
def toJson (s : ChainState) : Value :=
  .record [("baseTimestamp", .double s.base), ("lastSample", .option Sample.toJson s.last)]

/-- Reads a chain state. -/
def ofJson? (v : Value) : Option ChainState := do
  let r ← v.record? ["baseTimestamp", "lastSample"]
  let base ← r.required "baseTimestamp" Value.double?
  let last ← r.optional "lastSample" Sample.ofJson?
  return { base, last }

end ChainState

end RoastTelemetry
