import RoastTelemetry.Refusal
import RoastTelemetry.Sample

/-!
# Thinning a history for a chart

Every `stride`-th sample is looked at, and kept if it differs significantly from the last one
kept. Comparing with what was kept, not with the sample before, lets a slow drift through once it
has added up. The first and the last sample are always kept, and the cap always holds.
-/

namespace RoastTelemetry

/-- How far to thin. -/
structure Thinning where
  /-- The most samples that may be left. -/
  maxPoints : UInt64 := 500
  /-- The change in °C beyond which a temperature differs significantly. -/
  changeThreshold : Single := 0.5
deriving DecidableEq

namespace Thinning

/-- The least cap: room for both ends. -/
def minPoints : Nat := 2

/-- Refuses a cap without room for both ends and a threshold that is no finite distance. -/
def validate (t : Thinning) : Except Refusal Unit :=
  if t.maxPoints.toNat < minPoints then .error (.thinning .tooFewPoints)
  else if !t.changeThreshold.isFinite || t.changeThreshold < 0 then
    .error (.thinning .unusableThreshold)
  else .ok ()

/-- Whether a temperature moved by more than the threshold, appeared or disappeared. -/
def moved (threshold : Single) : Option Single → Option Single → Bool
  | some a, some b => threshold < (a - b).abs
  | none, none => false
  | _, _ => true

/-- Whether two samples differ enough for both to be shown. -/
def differs (threshold : Single) (kept candidate : Sample) : Bool :=
  moved threshold kept.beanTemp candidate.beanTemp
    || moved threshold kept.envTemp candidate.envTemp
    || kept.mode != candidate.mode
    || kept.heaterOn != candidate.heaterOn

/-- Of the candidates, those that differ from the last sample kept before them. -/
def keepFrom (threshold : Single) (last : Sample) : List (Sample × Nat) → List (Sample × Nat)
  | [] => []
  | candidate :: rest =>
    if differs threshold last candidate.1 then candidate :: keepFrom threshold candidate.1 rest
    else keepFrom threshold last rest

/-- The distance between candidates: at most `cap` of them in `count` samples. -/
def stride (count cap : Nat) : Nat := (count + cap - 1) / cap

/-- The samples at multiples of the stride, with their positions. -/
def candidates (stride : Nat) (samples : List Sample) : List (Sample × Nat) :=
  samples.zipIdx.filter fun s => s.2 % stride == 0

/-- The candidates that are kept; the first one always is. -/
def kept (threshold : Single) : List (Sample × Nat) → List (Sample × Nat)
  | [] => []
  | first :: rest => first :: keepFrom threshold first.1 rest

/-- Adds the last sample unless it is there; at the cap it takes the place of the last one kept. -/
def withLast (cap : Nat) (kept : List (Sample × Nat)) (last : Sample × Nat) :
    List (Sample × Nat) :=
  if kept.getLast?.map Prod.snd = some last.2 then kept
  else (if cap ≤ kept.length then kept.dropLast else kept) ++ [last]

/-- The cap that is used: one without room for both ends is raised. -/
def cap (maxPoints : Nat) : Nat := max maxPoints minPoints

/-- Whether a cap has to be raised. -/
def raisesCap (maxPoints : Nat) : Bool := maxPoints < minPoints

/-- Thins a history to at most `maxPoints` samples. -/
def thin (maxPoints : Nat) (threshold : Single) (samples : List Sample) : List Sample :=
  match samples.zipIdx.getLast? with
  | none => []
  | some last =>
    if samples.length ≤ cap maxPoints then samples
    else
      let candidates := candidates (stride samples.length (cap maxPoints)) samples
      (withLast (cap maxPoints) (kept threshold candidates) last).map Prod.fst

/-- Thins a history with these settings. -/
def apply (t : Thinning) (samples : List Sample) : List Sample :=
  thin t.maxPoints.toNat t.changeThreshold samples

end Thinning

end RoastTelemetry
