import RoastTelemetry.History.RingBuffer

/-!
# What a ring holds

A ring is a cursor, a length and some slots; what its callers see is a list. This file ties the
two together: after any run of pushes and clears the ring reads as the last points pushed since
the last clear, as many as it has room for.

The invariant numbers the points since the last clear and says where each one lies: point `i` is
in slot `i % capacity`, as long as it is one of the last `capacity` points. Both ways in which a
position is turned into a slot, before and after the ring is full, are instances of that.
-/

namespace RoastTelemetry

variable {α : Type}

/-- What a writer does to a history. -/
inductive RingStep (α : Type) where
  /-- Adds a point. -/
  | push (x : α)
  /-- Drops all points. -/
  | clear

namespace RingStep

/-- The points since the last clear, after one more step. -/
def follow (points : List α) : RingStep α → List α
  | .push x => points ++ [x]
  | .clear => []

/-- The points pushed since the last clear, in the order of the pushes. -/
def pushed (steps : List (RingStep α)) : List α := steps.foldl follow []

end RingStep

namespace RingBuffer

/-- One step of a writer. -/
def apply (b : RingBuffer α) : RingStep α → RingBuffer α
  | .push x => b.push x
  | .clear => b.clear

/-- A run of a writer. -/
def run (b : RingBuffer α) (steps : List (RingStep α)) : RingBuffer α := steps.foldl apply b

/-- The ring `b` has seen exactly `points` since it was last empty. -/
structure Follows (b : RingBuffer α) (points : List α) : Prop where
  /-- No more points are held than there is room for. -/
  length_eq : b.length = min points.length b.capacity
  /-- The cursor has moved one slot per point, round and round. -/
  cursor_eq : b.cursor = points.length % b.capacity
  /-- A point that was not pushed out yet is in the slot of its number. -/
  slot : ∀ i x, points[i]? = some x → points.length ≤ i + b.capacity →
    b.slots[i % b.capacity]? = some (some x)

/-! ## Every step keeps the invariant -/

theorem follows_empty (capacity : Nat) (h : minCapacity ≤ capacity) :
    Follows (empty capacity h : RingBuffer α) [] where
  length_eq := by simp [empty]
  cursor_eq := by simp [empty]
  slot := by intro i x hx; simp at hx

theorem follows_clear (b : RingBuffer α) : Follows b.clear [] where
  length_eq := by simp [clear]
  cursor_eq := by simp [clear]
  slot := by intro i x hx; simp at hx

/-- Numbers less than a whole round apart have slots of their own. -/
theorem mod_ne_of_lt {i n capacity : Nat} (h : i < n) (hn : n < i + capacity) :
    i % capacity ≠ n % capacity := by
  intro he
  have hdvd : capacity ∣ n - i := Nat.dvd_of_mod_eq_zero (Nat.sub_mod_eq_zero_of_mod_eq he.symm)
  have := Nat.le_of_dvd (by omega) hdvd
  omega

theorem follows_push {b : RingBuffer α} {points : List α} (h : Follows b points) (x : α) :
    Follows (b.push x) (points ++ [x]) where
  length_eq := by
    have hl := h.length_eq
    have hc : (b.push x).length = min (b.length + 1) b.capacity := rfl
    rw [hc, capacity_push, List.length_append, List.length_singleton, hl]
    omega
  cursor_eq := by
    have hc : (b.push x).cursor = (b.cursor + 1) % b.capacity := rfl
    rw [hc, capacity_push, List.length_append, List.length_singleton, h.cursor_eq,
      Nat.mod_add_mod]
  slot := by
    intro i y hy hi
    rw [capacity_push] at hi ⊢
    rw [List.length_append, List.length_singleton] at hi
    have hs : (b.push x).slots = b.slots.set b.cursor (some x) b.cursor_lt := rfl
    rw [hs, Array.getElem?_set]
    rcases Nat.lt_or_ge i points.length with hlt | hge
    · -- an older point: the cursor stands on another slot
      have hne : b.cursor ≠ i % b.capacity := by
        -- it is among the last `capacity` points, so not a whole round away
        rw [h.cursor_eq]
        exact (mod_ne_of_lt hlt (by omega)).symm
      rw [if_neg hne]
      rw [List.getElem?_append_left hlt] at hy
      exact h.slot i y hy (by omega)
    · -- the new point
      have hlen := (List.getElem?_eq_some_iff.mp hy).1
      rw [List.length_append, List.length_singleton] at hlen
      have hin : i = points.length := by omega
      subst hin
      rw [List.getElem?_concat_length] at hy
      rw [if_pos h.cursor_eq, Option.some.inj hy]

theorem follows_apply {b : RingBuffer α} {points : List α} (h : Follows b points)
    (step : RingStep α) : Follows (b.apply step) (step.follow points) := by
  cases step with
  | push x => exact follows_push h x
  | clear => exact follows_clear b

@[simp]
theorem capacity_apply (b : RingBuffer α) (step : RingStep α) :
    (b.apply step).capacity = b.capacity := by
  cases step with
  | push x => exact capacity_push b x
  | clear => exact capacity_clear b

theorem follows_foldl (steps : List (RingStep α)) :
    ∀ {b : RingBuffer α} {points : List α}, Follows b points →
      Follows (steps.foldl apply b) (steps.foldl RingStep.follow points) := by
  induction steps with
  | nil => intro b points h; exact h
  | cons step steps ih => intro b points h; exact ih (follows_apply h step)

/-- After any run the ring has seen the points pushed since the last clear. -/
theorem follows_run (capacity : Nat) (h : minCapacity ≤ capacity) (steps : List (RingStep α)) :
    Follows ((empty capacity h).run steps) (RingStep.pushed steps) :=
  follows_foldl steps (follows_empty capacity h)

theorem capacity_run (steps : List (RingStep α)) :
    ∀ b : RingBuffer α, (b.run steps).capacity = b.capacity := by
  induction steps with
  | nil => intro b; rfl
  | cons step steps ih =>
      intro b
      have hrun : b.run (step :: steps) = (b.apply step).run steps := rfl
      rw [hrun, ih, capacity_apply]

/-! ## What a ring with the invariant reads as -/

namespace Follows

variable {b : RingBuffer α} {points : List α}

theorem length_le (h : Follows b points) : b.length ≤ points.length := by
  rw [h.length_eq]; exact Nat.min_le_left _ _

/-- Both ways of finding a slot count on from the oldest point held. -/
theorem slotOf_eq (h : Follows b points) {index : Nat} (hi : index < b.length) :
    b.slotOf index = (points.length - b.length + index) % b.capacity := by
  have hl := h.length_eq
  unfold slotOf
  by_cases hf : b.isFull = true
  · -- full: the oldest point lies under the cursor
    have hfull : b.length = b.capacity := by simpa [isFull] using hf
    have hsum : points.length + index = points.length - b.length + index + b.capacity := by omega
    rw [if_pos hf, h.cursor_eq, Nat.mod_add_mod, hsum, Nat.add_mod_right]
  · -- not full: nothing was pushed out yet, so positions are slots
    have hnot : b.length ≠ b.capacity := by simpa [isFull] using hf
    have hzero : points.length - b.length + index = index := by omega
    rw [if_neg hf, hzero, Nat.mod_eq_of_lt (by omega)]

/-- A slot read for a position below the length holds the point of that position. -/
theorem slots_slotOf (h : Follows b points) {index : Nat} (hi : index < b.length) :
    ∃ x, points[points.length - b.length + index]? = some x ∧
      b.slots[b.slotOf index]? = some (some x) := by
  have hl := h.length_eq
  have hlt : points.length - b.length + index < points.length := by omega
  refine ⟨_, List.getElem?_eq_getElem hlt, ?_⟩
  rw [h.slotOf_eq hi]
  exact h.slot _ _ (List.getElem?_eq_getElem hlt) (by omega)

theorem get?_eq (h : Follows b points) (index : Nat) :
    b.get? index = (points.drop (points.length - b.length))[index]? := by
  rw [List.getElem?_drop]
  unfold get?
  by_cases hi : index < b.length
  · obtain ⟨x, hx, hs⟩ := h.slots_slotOf hi
    rw [if_pos hi, hs, hx]
    rfl
  · have hle := h.length_le
    rw [if_neg hi]
    exact (List.getElem?_eq_none (by omega)).symm

theorem length_drop (h : Follows b points) :
    (points.drop (points.length - b.length)).length = b.length := by
  have hle := h.length_le
  rw [List.length_drop]
  omega

/-- The slot in front of the cursor is the slot of the last point. -/
theorem latestSlot_eq (h : Follows b points) {n : Nat} (hn : points.length = n + 1) :
    b.latestSlot = n % b.capacity := by
  have hlt : n % b.capacity < b.capacity := Nat.mod_lt _ b.capacity_pos
  have hc : b.cursor = (n % b.capacity + 1) % b.capacity := by
    rw [h.cursor_eq, hn, Nat.mod_add_mod]
  unfold latestSlot
  rcases Nat.lt_or_ge (n % b.capacity + 1) b.capacity with hin | hout
  · rw [Nat.mod_eq_of_lt hin] at hc
    rw [hc, if_neg (Nat.succ_ne_zero _), Nat.add_sub_cancel]
  · -- the last point filled the last slot, and the cursor went back to the first
    have heq : n % b.capacity + 1 = b.capacity := by omega
    rw [heq, Nat.mod_self] at hc
    rw [hc, if_pos rfl]
    omega

theorem slots_latestSlot (h : Follows b points) (hne : b.length ≠ 0) :
    ∃ x, points.getLast? = some x ∧ b.slots[b.latestSlot]? = some (some x) := by
  have hl := h.length_eq
  have hc := b.capacity_pos
  obtain ⟨n, hn⟩ : ∃ n, points.length = n + 1 := ⟨points.length - 1, by omega⟩
  have hlt : n < points.length := by omega
  refine ⟨points[n], ?_, ?_⟩
  · rw [List.getLast?_eq_getElem?, hn, Nat.add_sub_cancel, List.getElem?_eq_getElem hlt]
  · rw [h.latestSlot_eq hn]
    exact h.slot n _ (List.getElem?_eq_getElem hlt) (by omega)

theorem latest?_eq (h : Follows b points) : b.latest? = points.getLast? := by
  unfold latest?
  by_cases hz : b.length = 0
  · have hnil : points = [] := by
      have hl := h.length_eq
      have hc := b.capacity_pos
      exact List.length_eq_zero_iff.mp (by omega)
    rw [hnil, if_pos (by simp [isEmpty, hz])]
    rfl
  · obtain ⟨x, hx, hs⟩ := h.slots_latestSlot hz
    rw [if_neg (by simp [isEmpty, hz]), hs, hx]
    rfl

end Follows

end RingBuffer

/-! ## Reading position after position -/

/-- Looking up every position from `k` on gives the list from there on. -/
theorem filterMap_getElem?_range' (xs : List α) :
    ∀ n k, n = xs.length - k → (List.range' k n).filterMap (fun i => xs[i]?) = xs.drop k := by
  intro n
  induction n with
  | zero =>
      intro k hk
      exact (List.drop_eq_nil_of_le (by omega)).symm
  | succ n ih =>
      intro k hk
      have hlt : k < xs.length := by omega
      rw [List.range'_succ, List.filterMap_cons_some (List.getElem?_eq_getElem hlt),
        ih (k + 1) (by omega), ← List.drop_eq_getElem_cons hlt]

namespace RingWalk

/-- The walk stands in front of `xs[w.index]`. -/
structure Reads (w : RingWalk α) (xs : List α) : Prop where
  /-- Positions read as in the list. -/
  get?_eq : ∀ i, w.buffer.get? i = xs[i]?
  /-- There are as many of them. -/
  length_eq : w.buffer.length = xs.length

theorem Reads.next_some {w : RingWalk α} {xs : List α} (h : w.Reads xs)
    (hlt : w.index < xs.length) :
    w.next = (some xs[w.index], { w with index := w.index + 1 }) := by
  unfold next
  rw [h.get?_eq, List.getElem?_eq_getElem hlt]

theorem Reads.next_none {w : RingWalk α} {xs : List α} (h : w.Reads xs)
    (hge : xs.length ≤ w.index) : w.next = (none, w) := by
  unfold next
  rw [h.get?_eq, List.getElem?_eq_none hge]

/-- The answers are the points from the index on, then nothing for ever; the index stops at the
end. -/
theorem Reads.advance_eq {xs : List α} (count : Nat) :
    ∀ {w : RingWalk α}, w.Reads xs → w.index ≤ xs.length →
      w.advance count =
        (((xs.drop w.index).take count).map some ++
            List.replicate (count - (xs.length - w.index)) none,
          { w with index := min (w.index + count) xs.length }) := by
  induction count with
  | zero =>
      intro w _ hw
      simp [advance, Nat.min_eq_left hw]
  | succ count ih =>
      intro w h hw
      rw [advance]
      rcases Nat.lt_or_ge w.index xs.length with hlt | hge
      · -- a point to come: it is the answer, and the walk goes on behind it
        have hnext : ({ w with index := w.index + 1 } : RingWalk α).Reads xs :=
          ⟨h.get?_eq, h.length_eq⟩
        have hcount : count + 1 - (xs.length - w.index) = count - (xs.length - (w.index + 1)) := by
          omega
        have hidx : w.index + 1 + count = w.index + (count + 1) := by omega
        rw [h.next_some hlt, List.drop_eq_getElem_cons hlt, List.take_succ_cons, hcount]
        dsimp only
        rw [ih hnext hlt, hidx]
        rfl
      · -- at the end the walk stays where it is
        have hend : w.index = xs.length := Nat.le_antisymm hw hge
        rw [h.next_none hge]
        dsimp only
        rw [ih h hw, hend]
        simp [List.replicate_succ]

/-- Collecting what is left gives the points from the index on. -/
theorem Reads.rest_eq {w : RingWalk α} {xs : List α} (h : w.Reads xs) :
    w.rest = xs.drop w.index := by
  -- on the number of points still to come
  induction hn : xs.length - w.index generalizing w with
  | zero =>
      have hge : xs.length ≤ w.index := Nat.le_of_sub_eq_zero hn
      rw [rest_of_next_none (h.next_none hge), List.drop_eq_nil_of_le hge]
  | succ n ih =>
      have hlt : w.index < xs.length := by omega
      have hnext : ({ w with index := w.index + 1 } : RingWalk α).Reads xs :=
        ⟨h.get?_eq, h.length_eq⟩
      rw [rest_of_next_some (h.next_some hlt), ih hnext (by dsimp only; omega),
        ← List.drop_eq_getElem_cons hlt]

end RingWalk

namespace RingBuffer.Follows

variable {b : RingBuffer α} {points : List α}

theorem reads_walk (h : Follows b points) :
    b.walk.Reads (points.drop (points.length - b.length)) where
  get?_eq := h.get?_eq
  length_eq := h.length_drop.symm

theorem toList_eq (h : Follows b points) :
    b.toList = points.drop (points.length - b.length) :=
  h.reads_walk.rest_eq

/-- A walk to the end and a look at every position give the same. -/
theorem toList_eq_filterMap (h : Follows b points) :
    b.toList = (List.range b.length).filterMap b.get? := by
  rw [h.toList_eq, funext h.get?_eq, List.range_eq_range',
    filterMap_getElem?_range' _ _ 0 (by rw [h.length_drop]; rfl), List.drop_zero]

end RingBuffer.Follows

/-- A walk over a whole ring, whatever the number of steps. -/
theorem RingBuffer.Follows.advance_walk {b : RingBuffer α} {points : List α}
    (h : RingBuffer.Follows b points) (count : Nat) :
    (b.walk.advance count).1 =
        (b.toList.take count).map some ++ List.replicate (count - b.toList.length) none ∧
      (b.walk.advance count).2.rest = b.toList.drop count ∧
      (b.walk.advance count).2.remaining = (b.toList.drop count).length := by
  have hw : b.walk.Reads b.toList := h.toList_eq ▸ h.reads_walk
  have hadv := hw.advance_eq count (Nat.zero_le _)
  have hindex : b.walk.index = 0 := rfl
  rw [hindex, List.drop_zero, Nat.sub_zero, Nat.zero_add] at hadv
  have hdrop : b.toList.drop (min count b.toList.length) = b.toList.drop count := by
    rw [← List.drop_eq_drop_min]
  refine ⟨by rw [hadv], ?_, ?_⟩
  · rw [hadv]
    have hreads : ({ b.walk with index := min count b.toList.length } : RingWalk α).Reads
        b.toList := ⟨hw.get?_eq, hw.length_eq⟩
    rw [hreads.rest_eq]
    exact hdrop
  · rw [hadv, List.length_drop, ← hw.length_eq]
    unfold RingWalk.remaining
    dsimp only
    omega

/-! ## The ring as a list -/

namespace RingBuffer

/--
**A ring is the last points pushed.**

Whatever was pushed and cleared, and however often the cursor went round: the ring reads as the
points pushed since the last clear, less those there is no room for, in the order of the pushes.
Every slot that a reader looks at on the way is there and holds a point.
-/
theorem run_eq_last_pushed (capacity : Nat) (hcap : 1 ≤ capacity) (steps : List (RingStep α)) :
    ∃ start : RingBuffer α, ofCapacity capacity = .ok start ∧
      let b := start.run steps
      let points := RingStep.pushed steps
      b.toList = points.drop (points.length - min points.length capacity) ∧
      b.length = min points.length capacity ∧
      (b.isEmpty = true ↔ points.length = 0) ∧
      (b.isFull = true ↔ capacity ≤ points.length) ∧
      b.capacity = capacity ∧
      b.latest? = points.getLast? ∧
      (∀ count,
        (b.walk.advance count).1 =
            (b.toList.take count).map some ++ List.replicate (count - b.toList.length) none ∧
          (b.walk.advance count).2.rest = b.toList.drop count ∧
          (b.walk.advance count).2.remaining = (b.toList.drop count).length) ∧
      (∀ index, index < b.length → ∃ x, b.slots[b.slotOf index]? = some (some x)) ∧
      (b.isEmpty = false → ∃ x, b.slots[b.latestSlot]? = some (some x)) := by
  have hmin : minCapacity ≤ capacity := hcap
  refine ⟨empty capacity hmin, dif_pos hmin, ?_⟩
  intro b points
  have h : Follows b points := follows_run capacity hmin steps
  have hc : b.capacity = capacity := by
    have hrun : b.capacity = (empty capacity hmin : RingBuffer α).capacity := capacity_run steps _
    rw [hrun, capacity_empty]
  have hl : b.length = min points.length capacity := by rw [h.length_eq, hc]
  have hpos := b.capacity_pos
  refine ⟨by rw [h.toList_eq, hl], hl, ?_, ?_, hc, h.latest?_eq, h.advance_walk, ?_, ?_⟩
  · simp only [isEmpty, beq_iff_eq]
    omega
  · simp only [isFull, beq_iff_eq]
    omega
  · intro index hi
    obtain ⟨x, _, hx⟩ := h.slots_slotOf hi
    exact ⟨x, hx⟩
  · intro he
    obtain ⟨x, _, hx⟩ := h.slots_latestSlot (by simpa [isEmpty] using he)
    exact ⟨x, hx⟩

/-- Three slots, five pushes after a clear: the cursor has gone round once and stands in between. -/
theorem run_three_slots :
    1 ≤ 3 ∧ ∃ start : RingBuffer Nat, ofCapacity 3 = .ok start ∧
      (start.run
          [.push 9, .push 8, .clear, .push 1, .push 2, .push 3, .push 4, .push 5]).toList =
        [3, 4, 5] ∧
      (start.run
          [.push 9, .push 8, .clear, .push 1, .push 2, .push 3, .push 4, .push 5]).latest? =
        some 5 := by
  obtain ⟨start, hstart, hlist, _, _, _, _, hlatest, _⟩ := run_eq_last_pushed 3 (by decide)
    [.push 9, .push 8, .clear, .push 1, .push 2, .push 3, .push 4, .push 5]
  exact ⟨by decide, start, hstart, hlist, hlatest⟩

end RingBuffer

end RoastTelemetry
