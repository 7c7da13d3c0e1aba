import RoastTelemetry.Gain
import RoastTelemetry.Timestamped

/-!
# Telemetry samples

A roaster does not read every channel on every tick. A channel that was not read is absent, which
is something else than a reading of zero; every part of the library keeps the two apart.
-/

namespace RoastTelemetry

/-- The readings of one tick. -/
structure Sample where
  /-- When they were taken, in seconds. -/
  timestamp : Double := 0
  /-- Bean temperature in °C. -/
  beanTemp : Option Single := none
  /-- Temperature of the drum air in °C. -/
  envTemp : Option Single := none
  /-- What the controller aims at, in °C. -/
  setpoint : Option Single := none
  /-- Fan duty. -/
  fan : Option UInt16 := none
  /-- Heater duty. -/
  heater : Option UInt16 := none
  /-- The controller's mode, as its firmware counts them. -/
  mode : Option UInt8 := none
  /-- Whether the heater output is enabled. -/
  heaterOn : Option Bool := none
  /-- The rate of rise that the device computed, in °C per minute. -/
  rateOfRise : Option Single := none
  /-- Proportional gain. -/
  kp : Option Gain := none
  /-- Integral gain. -/
  ki : Option Gain := none
  /-- Derivative gain. -/
  kd : Option Gain := none
deriving DecidableEq, Inhabited

instance : Timestamped Sample := ⟨Sample.timestamp⟩

/-- Something that can be set in a sample. -/
inductive Reading where
  | time (seconds : Double)
  | beanTemp (celsius : Single)
  | envTemp (celsius : Single)
  | setpoint (celsius : Single)
  | duty (fan heater : UInt16)
  | control (mode : UInt8) (heaterOn : Bool)
  | rateOfRise (perMinute : Single)
  | gains (kp ki kd : Gain)

namespace Sample

/-- The sample with a reading put in; all other channels stay. -/
def put (s : Sample) : Reading → Sample
  | .time t => { s with timestamp := t }
  | .beanTemp x => { s with beanTemp := some x }
  | .envTemp x => { s with envTemp := some x }
  | .setpoint x => { s with setpoint := some x }
  | .duty fan heater => { s with fan := some fan, heater := some heater }
  | .control mode heaterOn => { s with mode := some mode, heaterOn := some heaterOn }
  | .rateOfRise x => { s with rateOfRise := some x }
  | .gains kp ki kd => { s with kp := some kp, ki := some ki, kd := some kd }

/-- The sample after each of a list of readings. -/
def putEach (s : Sample) : List Reading → List Sample
  | [] => []
  | r :: rest => s.put r :: (s.put r).putEach rest

end Sample

end RoastTelemetry
