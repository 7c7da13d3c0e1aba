import RoastTelemetry.Curve
import RoastTelemetry.Proofs.Binary.Ordered
import RoastTelemetry.Proofs.History.Contents

/-!
# What a range query finds

A range query is two searches for the end of a leading part: the points before the start, and the
points that are not after the stop. Where both parts are there to be found, what lies between their
ends is what a look at every point would have picked, with any number of points at the same time, in
whatever place the start and the stop lie, and in whichever order.

Nothing is asked of a search but this much. So the bounds of a query on points that are out of order
may be anything that a search comes up with, but they never leave the list.
-/

namespace RoastTelemetry

namespace TimeRange

variable {α : Type}

/-! ## Searching for the end of a leading part -/

/-- `p` holds on all of `front` and fails on all of `back`. -/
structure Splits (p : α → Bool) (front back : List α) : Prop where
  front : ∀ x ∈ front, p x = true
  back : ∀ x ∈ back, p x = false

/-- `p` holds on a leading part of a list and fails on the rest. -/
def HoldsFirst (p : α → Bool) (xs : List α) : Prop :=
  ∃ front back, xs = front ++ back ∧ Splits p front back

/-- What a search has to do: find the end of a leading part if there is one, and stay in bounds. -/
structure Searches (search : (α → Bool) → Array α → Nat) : Prop where
  /-- The answer is a position in the array, or its end. -/
  le_size : ∀ p xs, search p xs ≤ xs.size
  /-- It is the length of the leading part where there is one. -/
  eq_length : ∀ {p front back}, Splits p front back →
    search p (front ++ back).toArray = front.length

variable {p : α → Bool} {front back : List α}

theorem Splits.iff_lt (h : Splits p front back) {i : Nat} {x : α}
    (hx : (front ++ back)[i]? = some x) : p x = true ↔ i < front.length := by
  rcases Nat.lt_or_ge i front.length with hlt | hge
  · rw [List.getElem?_append_left hlt] at hx
    exact ⟨fun _ => hlt, fun _ => h.front x (List.mem_of_getElem? hx)⟩
  · rw [List.getElem?_append_right hge] at hx
    have hfail := h.back x (List.mem_of_getElem? hx)
    constructor
    · intro hp
      rw [hfail] at hp
      cases hp
    · intro hlt
      omega

/-- A test that a point passes if a later one does holds on a leading part. -/
theorem holdsFirst_of_pairwise {xs : List α} (h : xs.Pairwise fun x y => p y = true → p x = true) :
    HoldsFirst p xs := by
  induction xs with
  | nil => exact ⟨[], [], rfl, by simp, by simp⟩
  | cons x rest ih =>
      obtain ⟨hx, hrest⟩ := List.pairwise_cons.mp h
      cases hp : p x with
      | true =>
          obtain ⟨front, back, rfl, hsplit⟩ := ih hrest
          refine ⟨x :: front, back, rfl, ?_, hsplit.back⟩
          intro y hy
          rcases List.mem_cons.mp hy with rfl | hy
          · exact hp
          · exact hsplit.front y hy
      | false =>
          refine ⟨[], x :: rest, rfl, by simp, ?_⟩
          intro y hy
          rcases List.mem_cons.mp hy with rfl | hy
          · exact hp
          · cases hpy : p y with
            | false => rfl
            | true => exact absurd (hx y hy hpy) (by simp [hp])

theorem searchFrom_le (p : α → Bool) (xs : Array α) (low high : Nat) (bound : high ≤ xs.size)
    (h : low ≤ high) : searchFrom p xs low high bound ≤ high := by
  fun_induction searchFrom p xs low high bound with
  | case1 low high bound hlt middle hp ih => exact ih (by omega)
  | case2 low high bound hlt middle hp ih => exact Nat.le_trans (ih (by omega)) (by omega)
  | case3 low high bound hlt => exact h

/-- The end of the leading part stays within what is left to search. -/
theorem searchFrom_eq (h : Splits p front back) (low high : Nat)
    (bound : high ≤ (front ++ back).toArray.size) (hlow : low ≤ front.length)
    (hhigh : front.length ≤ high) :
    searchFrom p (front ++ back).toArray low high bound = front.length := by
  fun_induction searchFrom p (front ++ back).toArray low high bound with
  | case1 low high bound hlt middle hp ih =>
      have hin : middle < front.length := (h.iff_lt (by simp)).mp hp
      exact ih hin hhigh
  | case2 low high bound hlt middle hp ih =>
      have hout : ¬middle < front.length := fun hin => hp ((h.iff_lt (by simp)).mpr hin)
      exact ih hlow (Nat.not_lt.mp hout)
  | case3 low high bound hlt => omega

theorem searches_leadingLength : Searches (leadingLength (α := α)) where
  le_size p xs := searchFrom_le p xs 0 xs.size _ (Nat.zero_le _)
  eq_length h := searchFrom_eq h 0 _ _ (Nat.zero_le _) (by simp)

/-! ## Between two ends -/

/-- What passes a test exactly at the positions of a range is the range. -/
theorem drop_take_eq_filter {points : List α} {low high : Nat}
    (h : ∀ i x, points[i]? = some x → (p x = true ↔ low ≤ i ∧ i < high)) :
    (points.take high).drop low = points.filter p := by
  induction points generalizing low high with
  | nil => simp
  | cons x rest ih =>
      have hx := h 0 x rfl
      have hrest : ∀ i y, rest[i]? = some y → (p y = true ↔ low - 1 ≤ i ∧ i < high - 1) := by
        intro i y hy
        rw [h (i + 1) y hy]
        omega
      have htail := ih hrest
      cases high with
      | zero =>
          rw [List.filter_cons_of_neg (by rw [hx]; omega), ← htail]
          simp
      | succ high =>
          cases low with
          | zero =>
              rw [List.filter_cons_of_pos (hx.mpr (by omega)), ← htail]
              rfl
          | succ low =>
              rw [List.filter_cons_of_neg (by rw [hx]; omega), ← htail]
              rfl

variable [Timestamped α] {points : List α} {start stop : Double}

/-- Whether a point is at a time from `start` to `stop`, both included. -/
def within (start stop : Double) (x : α) : Bool := decide (start ≤ time x) && decide (time x ≤ stop)

/-- Both leading parts that a query searches for are there to be found. -/
structure Ordered (points : List α) (start stop : Double) : Prop where
  /-- The points before the start come first. -/
  start_first : HoldsFirst (fun x => decide (time x < start)) points
  /-- So do those that are not after the stop. -/
  stop_first : HoldsFirst (fun x => decide (time x ≤ stop)) points

/-- The bounds of a query are those of the points within its span. -/
structure Answers (points : List α) (start stop : Double) (bounds : Option (Nat × Nat)) :
    Prop where
  /-- What the bounds cut out is what a look at every point picks. -/
  slice_eq : slice points bounds = points.filter (within start stop)
  /-- There are no bounds exactly if no point is within the span. -/
  eq_none_iff : bounds = none ↔ ∀ x ∈ points, within start stop x = false
  /-- Else a point is between the bounds exactly if it is within the span. -/
  mem_iff : ∀ low high, bounds = some (low, high) → ∀ i x, points[i]? = some x →
    (within start stop x = true ↔ low ≤ i ∧ i < high)

theorem ordered_of_pairwise (h : points.Pairwise fun x y => time x ≤ time y)
    (start stop : Double) : Ordered points start stop where
  start_first := by
    refine holdsFirst_of_pairwise (h.imp ?_)
    intro x y hxy hy
    exact decide_eq_true (Binary.lt_of_le_of_lt hxy (of_decide_eq_true hy))
  stop_first := by
    refine holdsFirst_of_pairwise (h.imp ?_)
    intro x y hxy hy
    exact decide_eq_true (Binary.le_trans hxy (of_decide_eq_true hy))

theorem within_iff (hstart : start.isNaN = false) (x : α) :
    within start stop x = true ↔ ¬time x < start ∧ time x ≤ stop := by
  unfold within
  rw [Bool.and_eq_true, decide_eq_true_eq, decide_eq_true_eq]
  constructor
  · intro h
    exact ⟨fun hlt => Binary.not_le_of_lt hlt h.1, h.2⟩
  · intro h
    exact ⟨Binary.le_of_not_lt (Binary.isNaN_of_le h.2).1 hstart h.1, h.2⟩

theorem within_eq_false (h : ¬start ≤ stop) (x : α) : within start stop x = false := by
  rw [Bool.eq_false_iff]
  intro hx
  unfold within at hx
  rw [Bool.and_eq_true, decide_eq_true_eq, decide_eq_true_eq] at hx
  exact h (Binary.le_trans hx.1 hx.2)

theorem answers_none (h : ∀ x ∈ points, within start stop x = false) :
    Answers points start stop none where
  slice_eq := by
    refine (List.filter_eq_nil_iff.mpr ?_).symm
    intro x hx
    rw [h x hx]
    exact Bool.false_ne_true
  eq_none_iff := ⟨fun _ => h, fun _ => rfl⟩
  mem_iff := by intro low high hnone; cases hnone

theorem answers_some {low high : Nat} (hlt : low < high) (hhigh : high ≤ points.length)
    (hmem : ∀ i x, points[i]? = some x → (within start stop x = true ↔ low ≤ i ∧ i < high)) :
    Answers points start stop (some (low, high)) where
  slice_eq := drop_take_eq_filter hmem
  eq_none_iff := by
    -- the first position between the bounds has a point
    have hin : low < points.length := Nat.lt_of_lt_of_le hlt hhigh
    have hfirst := (hmem _ _ (List.getElem?_eq_getElem hin)).mpr ⟨Nat.le_refl _, hlt⟩
    constructor
    · intro hnone
      cases hnone
    · intro hfail
      rw [hfail _ (List.getElem_mem hin)] at hfirst
      cases hfirst
  mem_iff := by
    intro low' high' hbounds
    obtain ⟨rfl, rfl⟩ := Prod.mk.inj (Option.some.inj hbounds)
    exact hmem

section

variable {search : (α → Bool) → Array α → Nat}

/-- Bounds of a query never leave the list, in whatever order its points are. -/
theorem Searches.bounds_lt (h : Searches search) {low high : Nat}
    (hbounds : boundsBy? search points start stop = some (low, high)) :
    low < high ∧ high ≤ points.length := by
  unfold boundsBy? at hbounds
  split at hbounds
  · dsimp only at hbounds
    split at hbounds
    · rename_i hlt
      obtain ⟨rfl, rfl⟩ := Prod.mk.inj (Option.some.inj hbounds)
      exact ⟨hlt, h.le_size _ _⟩
    · cases hbounds
  · cases hbounds

theorem Searches.answers (h : Searches search) (hordered : Ordered points start stop) :
    Answers points start stop (boundsBy? search points start stop) := by
  unfold boundsBy?
  split
  · rename_i hle
    have hstart := (Binary.isNaN_of_le hle).1
    obtain ⟨before, rest, hpoints, hbefore⟩ := hordered.start_first
    obtain ⟨upto, after, hpoints', hupto⟩ := hordered.stop_first
    have hlow := h.eq_length hbefore
    have hhigh := h.eq_length hupto
    rw [← hpoints] at hlow
    rw [← hpoints'] at hhigh
    have hmem : ∀ i x, points[i]? = some x →
        (within start stop x = true ↔ before.length ≤ i ∧ i < upto.length) := by
      intro i x hx
      have hlt := hbefore.iff_lt (hpoints ▸ hx)
      have hge := hupto.iff_lt (hpoints' ▸ hx)
      rw [decide_eq_true_eq] at hlt hge
      rw [within_iff hstart, hlt, hge, Nat.not_lt]
    dsimp only
    rw [hlow, hhigh]
    split
    · rename_i hlt
      refine answers_some hlt ?_ hmem
      rw [hpoints', List.length_append]
      exact Nat.le_add_right _ _
    · rename_i hnot
      refine answers_none ?_
      intro x hx
      obtain ⟨i, hi⟩ := List.mem_iff_getElem?.mp hx
      rw [Bool.eq_false_iff, Ne, hmem i x hi]
      omega
  · rename_i hnot
    exact answers_none fun x _ => within_eq_false hnot x

end

end TimeRange

/-! ## Queries on a ring -/

namespace RingStep

/-- Of the points pushed since the last clear, the last ones, as many as there is room for. -/
def retained {α : Type} (capacity : Nat) (steps : List (RingStep α)) : List α :=
  (pushed steps).drop ((pushed steps).length - min (pushed steps).length capacity)

end RingStep

namespace RingBuffer

variable {α : Type}

theorem toList_run_empty (capacity : Nat) (h : minCapacity ≤ capacity)
    (steps : List (RingStep α)) :
    ((empty capacity h).run steps).toList = RingStep.retained capacity steps := by
  have hfollows := follows_run capacity h steps
  rw [hfollows.toList_eq, hfollows.length_eq, capacity_run, capacity_empty]
  rfl

end RingBuffer

namespace TimeRange

variable {α : Type} [Timestamped α]

/--
**A range query picks what a look at every point would pick.**

Let the points before the start come first, and so the points that are not after the stop, as they
do in every list in order of time, with any number of points at the same time. Then the query finds
exactly the points from the start to the stop, in their order, and none if there are none, as after
a stop before the start or with a NaN as either. It does so with any search that finds the end of a
leading part, of which binary search is one. The same holds of a ring, of the points it retains
after any run of pushes and clears. On other lists the bounds may be what they are, but they are not
empty and lie within the list.
-/
theorem select_eq_filter (points : List α) (start stop : Double) :
    (∀ search, Searches search →
      (∀ low high, boundsBy? search points start stop = some (low, high) →
        low < high ∧ high ≤ points.length) ∧
      (Ordered points start stop →
        Answers points start stop (boundsBy? search points start stop))) ∧
    Searches (leadingLength (α := α)) ∧
    (Ordered points start stop →
      Answers points start stop (bounds? points start stop) ∧
        select points start stop = points.filter (within start stop)) ∧
    ((points.Pairwise fun x y => time x ≤ time y) → Ordered points start stop) ∧
    ∀ capacity steps, 1 ≤ capacity →
      ∃ ring : RingBuffer α, RingBuffer.ofCapacity capacity = .ok ring ∧
        (ring.run steps).toList = RingStep.retained capacity steps ∧
        (Ordered (RingStep.retained capacity steps) start stop →
          (ring.run steps).range start stop =
            (RingStep.retained capacity steps).filter (within start stop)) := by
  have hbinary := searches_leadingLength (α := α)
  refine ⟨fun search h => ⟨fun low high => h.bounds_lt, h.answers⟩, hbinary, ?_,
    fun h => ordered_of_pairwise h start stop, ?_⟩
  · intro hordered
    have hanswers := hbinary.answers hordered
    exact ⟨hanswers, hanswers.slice_eq⟩
  · intro capacity steps hcap
    have hmin : RingBuffer.minCapacity ≤ capacity := hcap
    have hlist := RingBuffer.toList_run_empty capacity hmin steps
    refine ⟨RingBuffer.empty capacity hmin, dif_pos hmin, hlist, ?_⟩
    intro hordered
    unfold RingBuffer.range
    rw [hlist]
    exact (hbinary.answers hordered).slice_eq

/-- Two points at the same time, and a ring of four slots that has gone round. -/
theorem select_eq_filter_gone_round :
    let points : List TemperaturePoint :=
      [⟨10, 90⟩, ⟨20, 91⟩, ⟨20, 92⟩, ⟨30, 93⟩, ⟨40, 94⟩, ⟨50, 95⟩]
    (points.Pairwise fun x y => time x ≤ time y) ∧
      select points 15 40 = [⟨20, 91⟩, ⟨20, 92⟩, ⟨30, 93⟩, ⟨40, 94⟩] ∧
      1 ≤ 4 ∧ ∃ ring : RingBuffer TemperaturePoint, RingBuffer.ofCapacity 4 = .ok ring ∧
        (ring.run (points.map RingStep.push)).range 15 40 = [⟨20, 92⟩, ⟨30, 93⟩, ⟨40, 94⟩] := by
  intro points
  have hsorted : points.Pairwise fun x y => time x ≤ time y := by decide +kernel
  obtain ⟨-, -, hselect, hordered, hring⟩ := select_eq_filter points 15 40
  obtain ⟨ring, hnew, -, hrange⟩ := hring 4 (points.map RingStep.push) (by decide)
  have hretained : RingStep.retained 4 (points.map RingStep.push) = points.drop 2 := rfl
  refine ⟨hsorted, ?_, by decide, ring, hnew, ?_⟩
  · rw [(hselect (hordered hsorted)).2]
    decide +kernel
  · rw [hrange, hretained]
    · decide +kernel
    · rw [hretained]
      exact ordered_of_pairwise (hsorted.sublist (List.drop_sublist 2 points)) 15 40

end TimeRange

end RoastTelemetry
