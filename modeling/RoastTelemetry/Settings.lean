import RoastTelemetry.Delta.Codec
import RoastTelemetry.History.RingBuffer
import RoastTelemetry.Rise.Pipeline
import RoastTelemetry.Roast.Landmarks
import RoastTelemetry.Thinning

/-!
# Settings for everything

One value sets up all parts. Each part has defaults of its own, so nothing has to be given.
-/

namespace RoastTelemetry

/-- The version that the defaults belong to. -/
def libraryVersion : String := "0.1.0"

/-- The settings of all parts. -/
structure Settings where
  /-- Samples that the live history holds: an hour at one per second. -/
  bufferCapacity : UInt64 := 3600
  /-- Rounding steps per unit in the codec. -/
  precision : Double := Codec.defaultPrecision
  /-- Thinning for charts. -/
  thinning : Thinning := {}
  /-- The rate of rise. -/
  rise : RiseSettings := {}
  /-- Landmark temperatures. -/
  thresholds : Thresholds := {}
deriving DecidableEq

namespace Settings

/-- An empty history of the capacity that is set. -/
def history (s : Settings) {α : Type} : Except Refusal (RingBuffer α) :=
  RingBuffer.ofCapacity s.bufferCapacity.toNat

/-- A codec of the precision that is set. -/
def codec (s : Settings) : Except Refusal Codec := Codec.ofPrecision s.precision

/-- The computation of the rate of rise that is set. -/
def risePipeline (s : Settings) : Except Refusal RisePipeline := RisePipeline.ofSettings s.rise

/-- Checks each part in turn: history, codec, thinning, rate of rise. The first refusal stands. -/
def validate (s : Settings) : Except Refusal Unit := do
  if s.bufferCapacity.toNat < RingBuffer.minCapacity then throw .zeroCapacity
  let _ ← s.codec
  s.thinning.validate
  s.rise.validate

end Settings

end RoastTelemetry
