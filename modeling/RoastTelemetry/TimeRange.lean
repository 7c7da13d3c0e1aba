import RoastTelemetry.Timestamped

/-!
# Points within a span of time

Two binary searches over points in time order: the first point that is not before the start, and
the first one after the end. Both ends belong to the span.
-/

namespace RoastTelemetry.TimeRange

variable {α : Type}

/--
Narrows `[low, high)` down to the first index whose element fails `p`, given that all elements
below `low` hold and all from `high` on fail. On an array where `p` does not hold on exactly a
leading part, the answer is some index in the range.
-/
def searchFrom (p : α → Bool) (xs : Array α) (low high : Nat) (bound : high ≤ xs.size) : Nat :=
  if h : low < high then
    let middle := low + (high - low) / 2
    if p (xs[middle]) then searchFrom p xs (middle + 1) high bound
    else searchFrom p xs low middle (by omega)
  else low
termination_by high - low

/-- How long the leading part is on which `p` holds. -/
def leadingLength (p : α → Bool) (xs : Array α) : Nat :=
  searchFrom p xs 0 xs.size (Nat.le_refl _)

/-- The points of an index range. -/
def slice (points : List α) : Option (Nat × Nat) → List α
  | some (low, high) => (points.take high).drop low
  | none => []

variable [Timestamped α]

/--
The half-open index range of the points from `start` to `stop`, both included, with both of its
ends found by `search`; none if no point is in it. A start after the stop, or a NaN as either,
spans nothing.
-/
def boundsBy? (search : (α → Bool) → Array α → Nat) (points : List α) (start stop : Double) :
    Option (Nat × Nat) :=
  if start ≤ stop then
    let xs := points.toArray
    let low := search (fun x => decide (time x < start)) xs
    let high := search (fun x => decide (time x ≤ stop)) xs
    if low < high then some (low, high) else none
  else none

/-- The index range of the points from `start` to `stop`, by binary search. -/
def bounds? (points : List α) (start stop : Double) : Option (Nat × Nat) :=
  boundsBy? leadingLength points start stop

/-- The points from `start` to `stop`, both included. -/
def select (points : List α) (start stop : Double) : List α :=
  slice points (bounds? points start stop)

end RoastTelemetry.TimeRange
