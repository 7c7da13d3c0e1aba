import RoastTelemetry.Refusal
import RoastTelemetry.TimeRange

/-!
# The live history

A ring of slots of fixed number. The next point goes to the slot under the cursor, so once the
ring is full every point pushed out is the oldest one. Callers see the points in the order in
which they were pushed, oldest first, whatever their times; which slot holds which point stays
inside this module.
-/

namespace RoastTelemetry

/-- A history of at most as many points as it has slots. -/
structure RingBuffer (α : Type) where
  /-- The slots; one that was never written is empty. -/
  slots : Array (Option α)
  /-- The slot that is written next. -/
  cursor : Nat
  /-- How many points are held. -/
  length : Nat
  /-- The cursor stands on a slot. -/
  cursor_lt : cursor < slots.size
  /-- There is a slot for every point. -/
  length_le : length ≤ slots.size

namespace RingBuffer

variable {α : Type}

/-- The least capacity of a history. -/
def minCapacity : Nat := 1

/-- An empty history of the given capacity. -/
def empty (capacity : Nat) (h : minCapacity ≤ capacity) : RingBuffer α where
  slots := Array.replicate capacity none
  cursor := 0
  length := 0
  cursor_lt := by rw [Array.size_replicate]; exact h
  length_le := Nat.zero_le _

/-- An empty history of the given capacity, if that is one. -/
def ofCapacity (capacity : Nat) : Except Refusal (RingBuffer α) :=
  if h : minCapacity ≤ capacity then .ok (empty capacity h) else .error .zeroCapacity

/-- The most points the history can hold. -/
def capacity (b : RingBuffer α) : Nat := b.slots.size

/-- Whether the history holds nothing. -/
def isEmpty (b : RingBuffer α) : Bool := b.length == 0

/-- Whether the next point pushes out the oldest one. -/
def isFull (b : RingBuffer α) : Bool := b.length == b.capacity

/-- Adds a point; a full history loses its oldest one. -/
def push (b : RingBuffer α) (x : α) : RingBuffer α where
  slots := b.slots.set b.cursor (some x) b.cursor_lt
  cursor := (b.cursor + 1) % b.slots.size
  length := min (b.length + 1) b.slots.size
  cursor_lt := by
    rw [Array.size_set]
    exact Nat.mod_lt _ (Nat.lt_of_le_of_lt (Nat.zero_le _) b.cursor_lt)
  length_le := by rw [Array.size_set]; exact Nat.min_le_right _ _

/-- Drops all points and starts again at the first slot. -/
def clear (b : RingBuffer α) : RingBuffer α where
  slots := Array.replicate b.slots.size none
  cursor := 0
  length := 0
  cursor_lt := by
    rw [Array.size_replicate]
    exact Nat.lt_of_le_of_lt (Nat.zero_le _) b.cursor_lt
  length_le := Nat.zero_le _

@[simp]
theorem capacity_empty (n : Nat) (h : minCapacity ≤ n) : (empty n h : RingBuffer α).capacity = n :=
  Array.size_replicate

@[simp]
theorem capacity_push (b : RingBuffer α) (x : α) : (b.push x).capacity = b.capacity :=
  Array.size_set b.cursor_lt

@[simp]
theorem capacity_clear (b : RingBuffer α) : b.clear.capacity = b.capacity := Array.size_replicate

/-- Every history has room for a point. -/
theorem capacity_pos (b : RingBuffer α) : 0 < b.capacity :=
  Nat.lt_of_le_of_lt (Nat.zero_le _) b.cursor_lt

/-- The slot in front of the cursor. -/
def latestSlot (b : RingBuffer α) : Nat := if b.cursor = 0 then b.capacity - 1 else b.cursor - 1

/-- The point pushed last. -/
def latest? (b : RingBuffer α) : Option α :=
  if b.isEmpty then none else (b.slots[b.latestSlot]?).join

/-- The slot of the point at a position, counted from the oldest one. -/
def slotOf (b : RingBuffer α) (index : Nat) : Nat :=
  if b.isFull then (b.cursor + index) % b.capacity else index

/-- The point at a position, counted from the oldest one. -/
def get? (b : RingBuffer α) (index : Nat) : Option α :=
  if index < b.length then (b.slots[b.slotOf index]?).join else none

theorem lt_length_of_get? {b : RingBuffer α} {index : Nat} {x : α} (h : b.get? index = some x) :
    index < b.length := by
  unfold get? at h
  split at h
  · assumption
  · cases h

end RingBuffer

/-- A walk through a history, oldest point first. -/
structure RingWalk (α : Type) where
  /-- The history walked through. -/
  buffer : RingBuffer α
  /-- The position of the next point. -/
  index : Nat := 0

namespace RingWalk

variable {α : Type}

/-- The next point and the walk after it; at the end the walk stays where it is. -/
def next (w : RingWalk α) : Option α × RingWalk α :=
  match w.buffer.get? w.index with
  | some x => (some x, { w with index := w.index + 1 })
  | none => (none, w)

/-- How many points are still to come. -/
def remaining (w : RingWalk α) : Nat := w.buffer.length - w.index

/-- The answers of the next `count` steps and the walk after them. -/
def advance (w : RingWalk α) : Nat → List (Option α) × RingWalk α
  | 0 => ([], w)
  | count + 1 =>
    let (x, w) := w.next
    let (xs, w) := w.advance count
    (x :: xs, w)

/-- A point that was given is no longer to come. -/
theorem remaining_next {w after : RingWalk α} {x : α} (h : w.next = (some x, after)) :
    after.remaining < w.remaining := by
  unfold next at h
  split at h
  · rename_i hget
    have hlt := RingBuffer.lt_length_of_get? hget
    obtain ⟨-, rfl⟩ := Prod.mk.inj h
    unfold remaining
    dsimp only
    omega
  · cases h

/-- The points still to come: what the next steps give until one gives none. -/
def rest (w : RingWalk α) : List α :=
  match hnext : w.next with
  | (some x, after) =>
    have := remaining_next hnext
    x :: after.rest
  | (none, _) => []
termination_by w.remaining

theorem rest_of_next_some {w after : RingWalk α} {x : α} (h : w.next = (some x, after)) :
    w.rest = x :: after.rest := by
  rw [rest]
  split
  · rename_i heq
    cases heq.symm.trans h
    rfl
  · rename_i heq
    cases heq.symm.trans h

theorem rest_of_next_none {w after : RingWalk α} (h : w.next = (none, after)) : w.rest = [] := by
  rw [rest]
  split
  · rename_i heq
    cases heq.symm.trans h
  · rfl

end RingWalk

namespace RingBuffer

variable {α : Type}

/-- A walk from the oldest point on. -/
def walk (b : RingBuffer α) : RingWalk α := { buffer := b }

/-- All points, oldest first. -/
def toList (b : RingBuffer α) : List α := b.walk.rest

/-- The oldest point. -/
def oldest? (b : RingBuffer α) : Option α := b.toList.head?

variable [Timestamped α]

/-- The points from `start` to `stop`, both included. -/
def range (b : RingBuffer α) (start stop : Double) : List α :=
  TimeRange.select b.toList start stop

/-- Whether a point is earlier than the one pushed last; it may be pushed all the same. -/
def isOutOfOrder (b : RingBuffer α) (x : α) : Bool :=
  match b.latest? with
  | some latest => decide (time x < time latest)
  | none => false

end RingBuffer

end RoastTelemetry
