import RoastTelemetry.Sample

/-!
# Packed samples

What is stored of a sample: its time as an offset, and its slowly moving channels as differences
from the sample before. A channel is absent in the packed sample exactly when it was absent in
the sample.
-/

namespace RoastTelemetry

/-- A sample as it is stored. -/
structure Packed where
  /-- Seconds since the base time. -/
  offset : Double
  /-- Bean temperature, as a difference if the sample before had one. -/
  beanTemp : Option Single := none
  /-- Drum air temperature, likewise. -/
  envTemp : Option Single := none
  /-- Setpoint, likewise. -/
  setpoint : Option Single := none
  /-- Fan duty. -/
  fan : Option UInt16 := none
  /-- Heater duty. -/
  heater : Option UInt16 := none
  /-- Controller mode. -/
  mode : Option UInt8 := none
  /-- Whether the heater output is enabled. -/
  heaterOn : Option Bool := none
  /-- Rate of rise, rounded. -/
  rateOfRise : Option Single := none
  /-- Proportional gain. -/
  kp : Option Gain := none
  /-- Integral gain. -/
  ki : Option Gain := none
  /-- Derivative gain. -/
  kd : Option Gain := none
deriving DecidableEq

/-- Where a chain of batches stands; its owner keeps it between batches. -/
structure ChainState where
  /-- The time that all offsets of the chain count from. -/
  base : Double := 0
  /-- The last sample of the chain; none before the first one. -/
  last : Option Sample := none
deriving DecidableEq

end RoastTelemetry
