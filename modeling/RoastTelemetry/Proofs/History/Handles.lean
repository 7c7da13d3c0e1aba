import RoastTelemetry.History.Handles
import RoastTelemetry.Proofs.History.Queries

/-!
# What a handle sees

Handles come into being while others are in use, and every request may come through any of them.
What a handle answers with is all the same one ring that was fed some of the requests so far, one
after the other. Where clones share a history these are all of them, through whichever handle they
came. Where a clone is a copy they are those of the handle's own line: what went through the handle
it was cloned from, up to the clone, and so on back to the first handle; and then its own.

That is one invariant, kept by every request: which ring lies where in the pool, and which place
belongs to which handle, can be told from the requests so far.
-/

namespace RoastTelemetry

/-- What may be asked through a handle: a command, or how much the history holds. -/
inductive Request (α : Type) where
  /-- A command. -/
  | command (c : HistoryCommand α)
  /-- Asks for the number of points. -/
  | length
  /-- Asks whether there are none. -/
  | isEmpty

/-- What is replied. -/
inductive Reply (α : Type) where
  /-- The answer to a command. -/
  | answer (a : HistoryAnswer α)
  /-- The number of points. -/
  | length (n : Nat)
  /-- Whether there are none. -/
  | isEmpty (b : Bool)

/-- A request through one of the handles. -/
structure HandleStep (α : Type) where
  /-- The handle. -/
  handle : Nat
  /-- The request. -/
  request : Request α

namespace Request

variable {α : Type}

/-- Whether the request makes another handle. -/
def isClone : Request α → Bool
  | command .clone => true
  | _ => false

/-- What the request does to the points, if anything. -/
def write? : Request α → Option (RingStep α)
  | command (.push x) => some (.push x)
  | command .clear => some .clear
  | _ => none

end Request

namespace RingBuffer

variable {α : Type} [Timestamped α]

/-- Serves a request on one history. -/
def serve (b : RingBuffer α) : Request α → Reply α × RingBuffer α
  | .command c => (.answer (b.execute c).1, (b.execute c).2)
  | .length => (.length b.length, b)
  | .isEmpty => (.isEmpty b.isEmpty, b)

/-- The history after some requests. -/
def feed (b : RingBuffer α) (requests : List (Request α)) : RingBuffer α :=
  requests.foldl (fun b request => (b.serve request).2) b

theorem feed_concat (b : RingBuffer α) (requests : List (Request α)) (request : Request α) :
    b.feed (requests ++ [request]) = ((b.feed requests).serve request).2 := by
  unfold feed
  rw [List.foldl_append, List.foldl_cons, List.foldl_nil]

/-- A request changes the points only by what it writes. -/
theorem serve_eq_apply (b : RingBuffer α) (request : Request α) :
    (b.serve request).2 = request.write?.elim b b.apply := by
  cases request with
  | command c => cases c <;> rfl
  | length | isEmpty => rfl

/-- Requests leave the history that a writer leaves who does what they do to the points. -/
theorem feed_eq_run (b : RingBuffer α) (requests : List (Request α)) :
    b.feed requests = b.run (requests.filterMap Request.write?) := by
  induction requests generalizing b with
  | nil => rfl
  | cons request rest ih =>
      have hfeed : b.feed (request :: rest) = (b.serve request).2.feed rest := rfl
      rw [hfeed, ih, serve_eq_apply]
      cases hwrite : request.write? with
      | none => rw [List.filterMap_cons_none hwrite]; rfl
      | some step => rw [List.filterMap_cons_some hwrite]; rfl

end RingBuffer

namespace HandlePool

/-! ## What the requests so far say about a pool -/

section Past

variable {α : Type}

/-- How many handles there are after some requests. -/
def handleCount (past : List (HandleStep α)) : Nat := 1 + past.countP (·.request.isClone)

/-- Each request comes through a handle that is there by then. -/
def Existing (steps : List (HandleStep α)) : Prop :=
  ∀ (i : Nat) (hi : i < steps.length), steps[i].handle < handleCount (steps.take i)

instance (steps : List (HandleStep α)) : Decidable (Existing steps) :=
  inferInstanceAs (Decidable (∀ (i : Nat) (hi : i < steps.length),
    steps[i].handle < handleCount (steps.take i)))

/--
The lines of the handles after one more request. It goes to the line of its handle; a clone starts a
line of its own with what was in that line before.
-/
def follow (lines : List (List (Request α))) (step : HandleStep α) : List (List (Request α)) :=
  let own := lines[step.handle]?.getD []
  let lines := lines.set step.handle (own ++ [step.request])
  if step.request.isClone then lines ++ [own] else lines

/-- For each handle the requests of its own line. -/
def lines (past : List (HandleStep α)) : List (List (Request α)) := past.foldl follow [[]]

/-- The requests that the history behind a handle has seen. -/
def seen (sharing : Sharing) (past : List (HandleStep α)) (handle : Nat) : List (Request α) :=
  match sharing with
  | .shared => past.map (·.request)
  | .separate => (lines past)[handle]?.getD []

theorem handleCount_concat (past : List (HandleStep α)) (step : HandleStep α) :
    handleCount (past ++ [step]) = handleCount past + if step.request.isClone then 1 else 0 := by
  unfold handleCount
  rw [List.countP_append, List.countP_singleton, Nat.add_assoc]

theorem lines_concat (past : List (HandleStep α)) (step : HandleStep α) :
    lines (past ++ [step]) = follow (lines past) step := by
  unfold lines
  rw [List.foldl_append, List.foldl_cons, List.foldl_nil]

theorem length_follow (lines : List (List (Request α))) (step : HandleStep α) :
    (follow lines step).length = lines.length + if step.request.isClone then 1 else 0 := by
  unfold follow
  split <;> simp [*]

/-- There is a line for each handle. -/
theorem length_lines (past : List (HandleStep α)) : (lines past).length = handleCount past := by
  induction past using List.reverseRecOn with
  | nil => rfl
  | append_singleton past step ih => rw [lines_concat, length_follow, handleCount_concat, ih]

end Past

variable {α : Type} [Timestamped α]

/-- Serves a request through a handle; none if there is no such handle. -/
def serve? (sharing : Sharing) (pool : HandlePool α) (handle : Nat) :
    Request α → Option (Reply α × HandlePool α)
  | .command c =>
    (pool.execute? sharing handle c).map fun (answer, after) => (.answer answer, after)
  | .length => (pool.get? handle).map fun b => (.length b.length, pool)
  | .isEmpty => (pool.get? handle).map fun b => (.isEmpty b.isEmpty, pool)

/-- Serves one request after the other; none if one comes through a handle that is not there. -/
def run? (sharing : Sharing) (pool : HandlePool α) :
    List (HandleStep α) → Option (List (Reply α) × HandlePool α)
  | [] => some ([], pool)
  | step :: rest => do
    let (reply, pool) ← pool.serve? sharing step.handle step.request
    let (replies, pool) ← pool.run? sharing rest
    return (reply :: replies, pool)

/-- The pool that some requests leave of one handle to one ring. -/
def after (sharing : Sharing) (ring : RingBuffer α) (past : List (HandleStep α)) :
    HandlePool α :=
  match sharing with
  | .shared => ⟨#[ring.feed (past.map (·.request))], Array.replicate (handleCount past) 0⟩
  | .separate => ⟨((lines past).map ring.feed).toArray, Array.range (handleCount past)⟩

variable {sharing : Sharing} (ring : RingBuffer α) {past : List (HandleStep α)}

/-! ## One request -/

/-- A request through a handle is served by the ring behind it; a clone adds a handle. -/
theorem serve?_eq {pool : HandlePool α} {handle owner : Nat} {b : RingBuffer α}
    (howner : pool.owners[handle]? = some owner) (hb : pool.buffers[owner]? = some b)
    (request : Request α) :
    pool.serve? sharing handle request = some ((b.serve request).1,
      let served : HandlePool α :=
        { pool with buffers := pool.buffers.setIfInBounds owner (b.serve request).2 }
      if request.isClone then served.addHandle sharing owner b else served) := by
  have hsame : pool.buffers.setIfInBounds owner b = pool.buffers := by
    obtain ⟨hlt, rfl⟩ := Array.getElem?_eq_some_iff.mp hb
    unfold Array.setIfInBounds
    rw [dif_pos hlt, Array.set_getElem_self]
  have hget : pool.get? handle = some b := by
    unfold get?
    rw [howner, Option.bind_some, hb]
  cases request with
  | command c => cases c <;> simp [serve?, execute?, howner, hb, RingBuffer.serve, Request.isClone]
  | length | isEmpty =>
      simp only [serve?, hget, Option.map_some, RingBuffer.serve, hsame]
      rfl

/-- The one ring of handles that share it belongs to each of them. -/
theorem owner_shared {handle : Nat} (h : handle < handleCount past) :
    (after .shared ring past).owners[handle]? = some 0 :=
  Array.getElem?_replicate.trans (if_pos h)

/-- Of handles to copies each has a ring of its own. -/
theorem owner_separate {handle : Nat} (h : handle < handleCount past) :
    (after .separate ring past).owners[handle]? = some handle :=
  Array.getElem?_range.trans (if_pos h)

theorem buffer_separate {handle : Nat} (h : handle < handleCount past) :
    (after .separate ring past).buffers[handle]? =
      some (ring.feed (seen .separate past handle)) := by
  rw [← length_lines] at h
  simp [after, seen, h]

/-- Behind each handle there is a ring that has seen what the handle's history has seen. -/
theorem get?_after {handle : Nat} (h : handle < handleCount past) :
    (after sharing ring past).get? handle = some (ring.feed (seen sharing past handle)) := by
  unfold get?
  cases sharing with
  | shared => rw [owner_shared ring h]; rfl
  | separate => rw [owner_separate ring h, Option.bind_some, buffer_separate ring h]

/-- **Every request is answered by the history of its handle**, and what it leaves is again the pool
of the requests so far. -/
theorem serve?_after {step : HandleStep α} (h : step.handle < handleCount past) :
    (after sharing ring past).serve? sharing step.handle step.request =
      some (((ring.feed (seen sharing past step.handle)).serve step.request).1,
        after sharing ring (past ++ [step])) := by
  cases sharing with
  | shared =>
      have hfeed : ring.feed ((past ++ [step]).map (·.request)) =
          ((ring.feed (past.map (·.request))).serve step.request).2 := by
        rw [List.map_append, List.map_singleton, RingBuffer.feed_concat]
      rw [serve?_eq (owner_shared ring h) rfl]
      simp only [after, seen, hfeed, handleCount_concat]
      split
      · rw [Array.replicate_succ]; rfl
      · rfl
  | separate =>
      have hown : (lines past)[step.handle]? = some (seen .separate past step.handle) := by
        rw [← length_lines] at h
        simp [seen, h]
      rw [serve?_eq (owner_separate ring h) (buffer_separate ring h)]
      simp only [after, lines_concat, follow, hown, Option.getD_some, handleCount_concat,
        List.setIfInBounds_toArray]
      -- a clone is the ring as it was before the request, at the next free place
      split
      · simp [addHandle, RingBuffer.feed_concat, length_lines, Array.range_succ]
      · simp [RingBuffer.feed_concat]

/-! ## Any number of requests -/

theorem run?_after (sharing : Sharing) (ring : RingBuffer α) (steps : List (HandleStep α)) :
    ∀ past : List (HandleStep α),
      (∀ i step, steps[i]? = some step → step.handle < handleCount (past ++ steps.take i)) →
      ∃ replies,
        (after sharing ring past).run? sharing steps =
          some (replies, after sharing ring (past ++ steps)) ∧
        replies.length = steps.length ∧
        ∀ i step, steps[i]? = some step → replies[i]? =
          some ((ring.feed (seen sharing (past ++ steps.take i) step.handle)).serve
            step.request).1 := by
  -- on the requests to come, for any that have been served: these alone say what the pool is
  induction steps with
  | nil =>
      intro past _
      exact ⟨[], by rw [List.append_nil]; rfl, rfl, by simp⟩
  | cons first rest ih =>
      intro past h
      have hfirst : first.handle < handleCount past := by simpa using h 0 first rfl
      obtain ⟨replies, hrun, hlength, hreplies⟩ := ih (past ++ [first]) (by
        intro i step hi
        simpa using h (i + 1) step hi)
      rw [List.append_assoc] at hrun
      refine ⟨((ring.feed (seen sharing past first.handle)).serve first.request).1 :: replies, ?_,
        congrArg (· + 1) hlength, ?_⟩
      · rw [run?, serve?_after ring hfirst]
        simp only [Option.bind_eq_bind, Option.bind_some, hrun]
        rfl
      · intro i step hi
        cases i with
        | zero =>
            obtain rfl := Option.some.inj hi
            rw [List.take_zero, List.append_nil]
            rfl
        | succ i =>
            rw [List.take_succ_cons, List.append_cons]
            exact hreplies i step hi

/--
**A handle sees the history that it shares, or else its own line, and nothing of any other.**

Start with one handle to an empty ring and make any requests through handles that are there by then.
Every one is served, and its reply is that of a single ring that was fed what the history of its
handle has seen: all requests before it, through whichever handle, where clones share the history,
and those of the handle's own line where they are copies. So is the ring behind every handle in the
end. In particular all points are the last ones that were pushed since the last clear, in this
history, as many as there is room for.
-/
theorem reply_of_own_history (capacity : Nat) (hcap : 1 ≤ capacity)
    {steps : List (HandleStep α)} (hsteps : Existing steps) :
    ∃ ring : RingBuffer α, RingBuffer.ofCapacity capacity = .ok ring ∧
      ∀ sharing, ∃ replies pool, (single ring).run? sharing steps = some (replies, pool) ∧
        replies.length = steps.length ∧
        (∀ i step, steps[i]? = some step →
          let requests := seen sharing (steps.take i) step.handle
          replies[i]? = some ((ring.feed requests).serve step.request).1 ∧
            (step.request = .command .contents → replies[i]? = some (.answer (.points
              (RingStep.retained capacity (requests.filterMap Request.write?)))))) ∧
        ∀ handle < handleCount steps,
          pool.get? handle = some (ring.feed (seen sharing steps handle)) := by
  have hmin : RingBuffer.minCapacity ≤ capacity := hcap
  refine ⟨RingBuffer.empty capacity hmin, dif_pos hmin, ?_⟩
  intro sharing
  have hstart : single (RingBuffer.empty capacity hmin : RingBuffer α) =
      after sharing (RingBuffer.empty capacity hmin) [] := by
    cases sharing <;> rfl
  obtain ⟨replies, hrun, hlength, hreplies⟩ :=
    run?_after sharing (RingBuffer.empty capacity hmin) steps [] (by
      intro i step hi
      obtain ⟨hlt, rfl⟩ := List.getElem?_eq_some_iff.mp hi
      exact hsteps i hlt)
  rw [hstart]
  refine ⟨replies, _, hrun, hlength, ?_, fun handle h => get?_after _ h⟩
  intro i step hi requests
  have hreply := hreplies i step hi
  rw [List.nil_append] at hreply
  refine ⟨hreply, ?_⟩
  intro hcontents
  rw [hreply, hcontents, ← RingBuffer.toList_run_empty capacity hmin, ← RingBuffer.feed_eq_run]
  rfl

/-- Two slots; the first handle clears what the second one, cloned from it, has pushed past the
end. -/
theorem reply_of_own_history_cleared :
    let steps : List (HandleStep TemperaturePoint) :=
      [⟨0, .command (.push ⟨0, 90⟩)⟩, ⟨0, .command .clone⟩, ⟨1, .command (.push ⟨1, 91⟩)⟩,
        ⟨0, .command (.push ⟨2, 92⟩)⟩, ⟨0, .command .clear⟩, ⟨1, .command (.push ⟨3, 93⟩)⟩,
        ⟨1, .command .contents⟩, ⟨0, .length⟩]
    1 ≤ 2 ∧ Existing steps ∧
      ∃ ring : RingBuffer TemperaturePoint, RingBuffer.ofCapacity 2 = .ok ring ∧
        (∃ replies pool, (single ring).run? .shared steps = some (replies, pool) ∧
          replies[6]? = some (.answer (.points [⟨3, 93⟩])) ∧ replies[7]? = some (.length 1)) ∧
        ∃ replies pool, (single ring).run? .separate steps = some (replies, pool) ∧
          replies[6]? = some (.answer (.points [⟨1, 91⟩, ⟨3, 93⟩])) ∧
          replies[7]? = some (.length 0) := by
  intro steps
  have hsteps : Existing steps := by decide
  obtain ⟨ring, hnew, h⟩ := reply_of_own_history 2 (by decide) hsteps
  obtain ⟨replies, pool, hrun, -, hreplies, -⟩ := h .shared
  obtain ⟨replies', pool', hrun', -, hreplies', -⟩ := h .separate
  have hring : ring = RingBuffer.empty 2 (by decide) := (Except.ok.inj hnew).symm
  subst hring
  exact ⟨by decide, hsteps, _, hnew,
    ⟨replies, pool, hrun, (hreplies 6 _ rfl).2 rfl, (hreplies 7 _ rfl).1⟩,
    replies', pool', hrun', (hreplies' 6 _ rfl).2 rfl, (hreplies' 7 _ rfl).1⟩

end HandlePool

end RoastTelemetry
