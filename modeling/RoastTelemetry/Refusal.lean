import RoastTelemetry.Decimal.Plain

/-!
# What is refused, and why

Processing never fails: empty input gives empty output, and a bad reading costs at most its own
point. Only two things are refused: settings with which nothing can be set up, and documents that
cannot be read.
-/

namespace RoastTelemetry

/-- What is wrong with thinning settings. -/
inductive ThinningFault where
  /-- The cap has no room for both ends of a history. -/
  | tooFewPoints
  /-- The change threshold is negative or no finite number. -/
  | unusableThreshold
deriving DecidableEq

/-- Why settings or a document are refused. -/
inductive Refusal where
  /-- A history without room for a sample. -/
  | zeroCapacity
  /-- A codec precision out of range. -/
  | precision (stepsPerUnit : Double)
  /-- A derivative over no interval. -/
  | window (size : Nat)
  /-- A smoothing factor out of range. -/
  | smoothing (alpha : Single)
  /-- A spike band whose bounds are not finite or in the wrong order. -/
  | spikeBand (low high : Single)
  /-- Thinning settings out of range. -/
  | thinning (fault : ThinningFault)
  /-- A device payload that is no sample. -/
  | malformedSample
  /-- A document of settings that holds none. -/
  | malformedSettings
deriving DecidableEq

/-- The clause that names a thinning fault. -/
def ThinningFault.clause : ThinningFault → String
  | .tooFewPoints => "max_points must be at least 2"
  | .unusableThreshold => "change_threshold must be finite and >= 0"

/-- The text shown for a refusal. -/
def Refusal.message : Refusal → String
  | .zeroCapacity => "Buffer capacity must be at least 1"
  | .precision p =>
    "Invalid codec precision " ++ p.plainText ++ ": must be finite, > 0 and <= 1000"
  | .window size => "Invalid RoR window size " ++ Digit.natText size ++ ": must be >= 1"
  | .smoothing alpha => "Invalid smoothing factor " ++ alpha.plainText ++ ": must be in (0, 1]"
  | .spikeBand low high =>
    "Invalid spike band [" ++ low.plainText ++ ", " ++ high.plainText ++ "]"
  | .thinning fault => "Invalid thinning config: " ++ fault.clause
  | .malformedSample => "Malformed telemetry payload"
  | .malformedSettings => "Malformed engine config"

end RoastTelemetry
