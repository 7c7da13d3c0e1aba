import RoastTelemetry.Binary.Order

/-!
# Points in time

All that the history and its range queries know about a point is when it happened.
-/

namespace RoastTelemetry

/-- A kind of point that happens at some time, in seconds. -/
class Timestamped (α : Type) where
  /-- When a point happened. -/
  time : α → Double

export Timestamped (time)

end RoastTelemetry
