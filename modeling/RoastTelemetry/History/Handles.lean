import RoastTelemetry.History.RingBuffer

/-!
# Handles to a history

A history is used through handles. Cloning a handle gives another one: either to the same
history, so that a writer and its readers see one sequence of points, or to a copy that goes its
own way from there.
-/

namespace RoastTelemetry

/-- What a clone refers to. -/
inductive Sharing where
  /-- The same history. -/
  | shared
  /-- A copy of it. -/
  | separate
deriving DecidableEq

/-- What can be asked of a history through a handle. -/
inductive HistoryCommand (α : Type) where
  /-- Adds a point. -/
  | push (x : α)
  /-- Asks for the point pushed last. -/
  | latest
  /-- Asks for all points. -/
  | contents
  /-- Asks for the points within a span of time. -/
  | range (start stop : Double)
  /-- Drops all points. -/
  | clear
  /-- Makes another handle. -/
  | clone
  /-- Walks from the oldest point on for some steps. -/
  | walk (steps : Nat)

/-- What a history answers. -/
inductive HistoryAnswer (α : Type) where
  /-- A point was added, and whether it was earlier than the one before. -/
  | pushed (outOfOrder : Bool)
  /-- The point pushed last. -/
  | latest (x : Option α)
  /-- Some points. -/
  | points (xs : List α)
  /-- A walk: the answer of each step, how many points were still to come, and these points. -/
  | walked (steps : List (Option α)) (remaining : Nat) (rest : List α)
  /-- Nothing to tell. -/
  | done

/-- Carries out a command on one history; cloning leaves it as it is. -/
def RingBuffer.execute {α : Type} [Timestamped α] (b : RingBuffer α) :
    HistoryCommand α → HistoryAnswer α × RingBuffer α
  | .push x => (.pushed (b.isOutOfOrder x), b.push x)
  | .latest => (.latest b.latest?, b)
  | .contents => (.points b.toList, b)
  | .range start stop => (.points (b.range start stop), b)
  | .clear => (.done, b.clear)
  | .clone => (.done, b)
  | .walk steps =>
    let (answers, after) := b.walk.advance steps
    (.walked answers after.remaining after.rest, b)

/-- Histories and the handles to them. -/
structure HandlePool (α : Type) where
  /-- The histories. -/
  buffers : Array (RingBuffer α)
  /-- For each handle the position of its history. -/
  owners : Array Nat

namespace HandlePool

variable {α : Type}

/-- One handle to one history. -/
def single (b : RingBuffer α) : HandlePool α := ⟨#[b], #[0]⟩

/-- The history of a handle. -/
def get? (pool : HandlePool α) (handle : Nat) : Option (RingBuffer α) :=
  pool.owners[handle]?.bind fun owner => pool.buffers[owner]?

/-- Adds a handle to the history at `owner`, or to a copy of it. -/
def addHandle (sharing : Sharing) (pool : HandlePool α) (owner : Nat) (b : RingBuffer α) :
    HandlePool α :=
  match sharing with
  | .shared => { pool with owners := pool.owners.push owner }
  | .separate => ⟨pool.buffers.push b, pool.owners.push pool.buffers.size⟩

/-- Carries out a command through a handle; none if there is no such handle. -/
def execute? [Timestamped α] (sharing : Sharing) (pool : HandlePool α) (handle : Nat)
    (command : HistoryCommand α) : Option (HistoryAnswer α × HandlePool α) := do
  let owner ← pool.owners[handle]?
  let b ← pool.buffers[owner]?
  let (answer, after) := b.execute command
  let pool := { pool with buffers := pool.buffers.setIfInBounds owner after }
  match command with
  | .clone => return (answer, pool.addHandle sharing owner b)
  | _ => return (answer, pool)

end HandlePool

end RoastTelemetry
