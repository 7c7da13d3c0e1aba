import RoastTelemetry.Settings
import RoastTelemetry.Roast.Phases
import RoastTelemetry.Roast.Summary

/-!
# Everything about a roast

Runs a history through all parts: it is held, packed and unpacked again, thinned, and its rate of
rise, landmarks, statistics and summary are taken. A part whose settings are refused does not stop
the others.
-/

namespace RoastTelemetry

/-- A batch that went through the codec and back. -/
structure Transmission where
  /-- What is stored. -/
  batch : List Packed
  /-- The state after it. -/
  state : ChainState
  /-- What is read back. -/
  decoded : List Sample

/-- What all parts say about a roast. -/
structure Report where
  /-- The history after all samples, or why there is none. -/
  history : Except Refusal (RingBuffer Sample)
  /-- The history through the codec. -/
  transmission : Except Refusal Transmission
  /-- The samples for a chart. -/
  chart : List Sample
  /-- The landmarks. -/
  landmarks : Landmarks
  /-- The rate of rise. -/
  rates : Except Refusal (List RatePoint)
  /-- Its statistics by phase, if there is one. -/
  stats : Option PhaseStats
  /-- The summary. -/
  summary : Summary

namespace Codec

/-- Packs samples as a chain of their own and unpacks them again. -/
def transmit (c : Codec) (samples : List Sample) : Transmission :=
  let (batch, state) := c.encode samples
  { batch, state, decoded := c.decode batch state }

end Codec

/-- Reports on samples. If there is a history, the report covers what the history still holds. -/
def Settings.report (s : Settings) (samples : List Sample) (marked : Landmarks) : Report :=
  let history := s.history.map fun b => samples.foldl RingBuffer.push b
  let held := match history with
    | .ok b => b.toList
    | .error _ => samples
  let curve := beanCurve held
  let landmarks := Landmarks.ofCurve curve marked s.thresholds
  let rates := s.rise.rates curve
  { history
    transmission := s.codec.map fun c => c.transmit held
    chart := s.thinning.apply held
    landmarks
    rates
    stats := rates.toOption.map fun points => PhaseStats.ofRates points landmarks
    summary := Summary.ofSamples held marked.firstCrack s.thresholds }

end RoastTelemetry
