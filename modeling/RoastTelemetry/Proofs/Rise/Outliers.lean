import RoastTelemetry.Proofs.Rise.SpikeBand
import Mathlib.Data.List.Perm.Basic

/-!
# What one bad rate can do

Despiking shows at each point that has two neighbours the middle one of three clamped rates, in
sorted order. Take any one of the three away, and the middle one lies between the two that are left,
whatever the third one was. So a single bad rate, however far off, or NaN, moves none of the points
around it out of what their other neighbours span, and no other point at all.
-/

namespace RoastTelemetry

open Binary

namespace SpikeBand

variable {b : SpikeBand} {x : Single}

/-- `y` is the rate of the band nearest to `x`. -/
structure Clamped (b : SpikeBand) (x y : Single) : Prop where
  /-- What is no number becomes the lower bound. -/
  of_isNaN : x.isNaN = true → y = b.low
  /-- What lies below the band becomes the lower bound. -/
  of_lt_low : x < b.low → y = b.low
  /-- What lies above it becomes the upper bound. -/
  of_high_lt : b.high < x → y = b.high
  /-- What lies in it stays. -/
  of_contains : b.Contains x → y = x

theorem Valid.clamped_clamp (h : b.Valid) (x : Single) : b.Clamped x (b.clamp x) where
  of_isNaN := by
    intro hnan
    have hmax : x.max b.low = b.low := by
      unfold Binary.max
      rw [if_pos hnan]
    unfold clamp
    rw [hmax, min_of_le h.low_le_high]
  of_lt_low := by
    intro hlt
    unfold clamp
    rw [max_of_lt hlt, min_of_le h.low_le_high]
  of_high_lt := by
    intro hlt
    unfold clamp
    rw [max_of_le (le_trans h.low_le_high (le_of_lt hlt)), min_of_lt hlt]
  of_contains := by
    intro hx
    unfold clamp
    rw [max_of_le hx.1, min_of_le hx.2]

end SpikeBand

namespace Rise

/-! ## The middle one of three -/

/-- `y` is the middle one of three values, in sorted order. -/
def IsMiddle (xs : List Single) (y : Single) : Prop :=
  ∃ low high, xs.Perm [low, y, high] ∧ low ≤ y ∧ y ≤ high

theorem IsMiddle.perm {xs xs' : List Single} {y : Single} (h : IsMiddle xs y)
    (hperm : xs'.Perm xs) : IsMiddle xs' y := by
  obtain ⟨low, high, hxs, hlow, hhigh⟩ := h
  exact ⟨low, high, hperm.trans hxs, hlow, hhigh⟩

/-- Whichever of the three is taken away, the middle one lies between the others. -/
theorem IsMiddle.between {x y : Single} {others : List Single} (h : IsMiddle (x :: others) y) :
    (∃ u ∈ others, u ≤ y) ∧ ∃ u ∈ others, y ≤ u := by
  obtain ⟨low, high, hperm, hlow, hhigh⟩ := h
  have hself : y ≤ y := le_self (isNaN_of_le hlow).2
  have hx := hperm.mem_iff.mp List.mem_cons_self
  simp only [List.mem_cons, List.not_mem_nil, or_false] at hx
  rcases hx with rfl | rfl | rfl
  · have hothers := (List.perm_cons x).mp hperm
    have hy : y ∈ others := hothers.mem_iff.mpr (by simp)
    exact ⟨⟨y, hy, hself⟩, y, hy, hself⟩
  · have hothers := (List.perm_cons x).mp (hperm.trans (List.Perm.swap x low [high]))
    exact ⟨⟨low, hothers.mem_iff.mpr (by simp), hlow⟩, high, hothers.mem_iff.mpr (by simp), hhigh⟩
  · have hback : ([low, y] ++ [x]).Perm ([x] ++ [low, y]) := List.perm_append_comm
    have hothers := (List.perm_cons x).mp (hperm.trans hback)
    have hy : y ∈ others := hothers.mem_iff.mpr (by simp)
    exact ⟨⟨y, hy, hself⟩, y, hy, hself⟩

/-- **The median is the middle one**, whatever the order of the three and with any ties. -/
theorem isMiddle_median {a b c : Single} (ha : a.isNaN = false) (hb : b.isNaN = false)
    (hc : c.isNaN = false) : IsMiddle [a, b, c] (median a b c) := by
  have hswap : [a, b, c].Perm [b, a, c] := List.Perm.swap b a [c]
  have hrotate : ([a, b] ++ [c]).Perm ([c] ++ [a, b]) := List.perm_append_comm
  unfold median
  rcases lt_or_le ha hb with hab | hba
  · rw [max_of_lt hab, min_of_le (le_of_lt hab)]
    rcases lt_or_le ha hc with hac | hca
    · rw [max_of_lt hac]
      rcases lt_or_le hc hb with hcb | hbc
      · rw [min_of_lt hcb]
        exact ⟨a, b, (List.Perm.swap c b []).cons a, le_of_lt hac, le_of_lt hcb⟩
      · rw [min_of_le hbc]
        exact ⟨a, c, List.Perm.refl _, le_of_lt hab, hbc⟩
    · rw [max_of_le hca, min_of_lt hab]
      exact ⟨c, b, hrotate, hca, le_of_lt hab⟩
  · rw [max_of_le hba]
    rcases lt_or_le hb ha with hlt | hab
    · rw [min_of_lt hlt]
      rcases lt_or_le hb hc with hbc | hcb
      · rw [max_of_lt hbc]
        rcases lt_or_le hc ha with hca | hac
        · rw [min_of_lt hca]
          exact ⟨b, a, hswap.trans ((List.Perm.swap c a []).cons b), le_of_lt hbc, le_of_lt hca⟩
        · rw [min_of_le hac]
          exact ⟨b, c, hswap, hba, hac⟩
      · rw [max_of_le hcb, min_of_lt hlt]
        exact ⟨c, a, hrotate.trans ((List.Perm.swap b a []).cons c), hcb, hba⟩
    · -- `a` and `b` are equal
      rw [min_of_le hab]
      rcases lt_or_le ha hc with hac | hca
      · rw [max_of_lt hac, min_of_le (le_of_lt hac)]
        exact ⟨b, c, hswap, hba, le_of_lt hac⟩
      · rw [max_of_le hca, min_of_le (le_self ha)]
        exact ⟨c, b, hrotate, hca, hab⟩

/-! ## What is shown at a position -/

/-- A rate, or the median if it has a neighbour on either side. -/
def middleOf (before : Option Single) (rate : Single) (after : Option Single) : Single :=
  match before, after with
  | some a, some b => median a rate b
  | _, _ => rate

/-- The rate in front of a position. -/
def rateBefore (before : Option Single) (rates : List Single) : Nat → Option Single
  | 0 => before
  | j + 1 => rates[j]?

theorem rateBefore_cons (before : Option Single) (rate : Single) (rates : List Single) (j : Nat) :
    rateBefore before (rate :: rates) (j + 1) = rateBefore (some rate) rates j := by
  cases j with
  | zero => rfl
  | succ j => rfl

theorem getElem?_medianFrom (before : Option RatePoint) (points : List RatePoint) (j : Nat) :
    ((medianFrom before points).map RatePoint.rate)[j]? =
      (points.map RatePoint.rate)[j]?.map fun rate =>
        middleOf (rateBefore (before.map RatePoint.rate) (points.map RatePoint.rate) j) rate
          (points.map RatePoint.rate)[j + 1]? := by
  induction points generalizing before j with
  | nil => rfl
  | cons p rest ih =>
      cases rest with
      | nil =>
          cases j with
          | zero => cases before <;> rfl
          | succ j => rfl
      | cons q rest =>
          cases j with
          | zero => cases before <;> rfl
          | succ j =>
              have htail := ih (some p) j
              rw [List.map_cons, rateBefore_cons]
              exact htail

/-- The rates that despiking takes its medians of. -/
def clampedRates (band : SpikeBand) (points : List RatePoint) : List Single :=
  points.map fun p => band.clamp p.rate

/-- The rates that despiking shows. -/
def despikedRates (band : SpikeBand) (points : List RatePoint) : List Single :=
  (despike band points).map RatePoint.rate

variable {band : SpikeBand} {points : List RatePoint}

theorem getElem?_despikedRates (band : SpikeBand) (points : List RatePoint) (j : Nat) :
    (despikedRates band points)[j]? = (clampedRates band points)[j]?.map fun rate =>
      middleOf (rateBefore none (clampedRates band points) j) rate
        (clampedRates band points)[j + 1]? := by
  have hrates : (points.map fun p => { p with rate := band.clamp p.rate }).map RatePoint.rate =
      clampedRates band points := by
    rw [List.map_map]
    rfl
  unfold despikedRates despike
  rw [getElem?_medianFrom, hrates]
  rfl

theorem getElem?_despikedRates_interior {j : Nat} {a b c : Single}
    (ha : (clampedRates band points)[j]? = some a)
    (hb : (clampedRates band points)[j + 1]? = some b)
    (hc : (clampedRates band points)[j + 2]? = some c) :
    (despikedRates band points)[j + 1]? = some (median a b c) := by
  have hbefore : rateBefore none (clampedRates band points) (j + 1) = some a := ha
  rw [getElem?_despikedRates, hb, hc, hbefore]
  rfl

theorem head?_despikedRates (band : SpikeBand) (points : List RatePoint) :
    (despikedRates band points).head? = (clampedRates band points).head? := by
  rw [List.head?_eq_getElem?, List.head?_eq_getElem?, getElem?_despikedRates]
  exact Option.map_id'

theorem length_despikedRates (band : SpikeBand) (points : List RatePoint) :
    (despikedRates band points).length = points.length := by
  unfold despikedRates
  rw [List.length_map, length_despike]

theorem length_clampedRates (band : SpikeBand) (points : List RatePoint) :
    (clampedRates band points).length = points.length := List.length_map _

theorem getLast?_despikedRates (band : SpikeBand) (points : List RatePoint) :
    (despikedRates band points).getLast? = (clampedRates band points).getLast? := by
  rw [List.getLast?_eq_getElem?, List.getLast?_eq_getElem?, getElem?_despikedRates,
    length_despikedRates, length_clampedRates]
  have hend : (clampedRates band points)[points.length - 1 + 1]? = none :=
    List.getElem?_eq_none (by rw [length_clampedRates]; omega)
  rw [hend]
  unfold middleOf
  cases rateBefore none (clampedRates band points) (points.length - 1) with
  | none => exact Option.map_id'
  | some a => exact Option.map_id'

theorem isNaN_of_mem_clampedRates (h : band.Valid) {x : Single}
    (hx : x ∈ clampedRates band points) : x.isNaN = false := by
  obtain ⟨p, -, rfl⟩ := List.mem_map.mp hx
  exact isNaN_of_isFinite (h.isFinite_of_contains (h.contains_clamp p.rate))

/-! ## One rate replaced -/

/-- The points with another rate at one position. -/
def replaceRate (points : List RatePoint) (k : Nat) (rate : Single) : List RatePoint :=
  points.modify k fun p => { p with rate }

theorem length_replaceRate (points : List RatePoint) (k : Nat) (rate : Single) :
    (replaceRate points k rate).length = points.length := List.length_modify _ _ _

theorem getElem?_clampedRates_replaceRate {i k : Nat} (hik : i ≠ k) (rate : Single) :
    (clampedRates band (replaceRate points k rate))[i]? = (clampedRates band points)[i]? := by
  have hpoint : (replaceRate points k rate)[i]? = points[i]? := by
    simp [replaceRate, hik.symm]
  unfold clampedRates
  rw [List.getElem?_map, List.getElem?_map, hpoint]

/-- A point that is not next to the one replaced stays. -/
theorem getElem?_despikedRates_far {j k : Nat} (h : k + 1 < j ∨ j + 1 < k) (rate : Single) :
    (despikedRates band (replaceRate points k rate))[j]? = (despikedRates band points)[j]? := by
  have hbefore : rateBefore none (clampedRates band (replaceRate points k rate)) j =
      rateBefore none (clampedRates band points) j := by
    cases j with
    | zero => rfl
    | succ j => exact getElem?_clampedRates_replaceRate (by omega) rate
  rw [getElem?_despikedRates, getElem?_despikedRates, hbefore,
    getElem?_clampedRates_replaceRate (by omega), getElem?_clampedRates_replaceRate (by omega)]

/-- `y` is between the smallest and the largest of the values at some positions. -/
structure Between (xs : List Single) (positions : List Nat) (y : Single) : Prop where
  exists_le : ∃ i ∈ positions, ∃ x, xs[i]? = some x ∧ x ≤ y
  exists_ge : ∃ i ∈ positions, ∃ x, xs[i]? = some x ∧ y ≤ x

theorem between_of_isMiddle {xs : List Single} {x u v y : Single} {i i' : Nat}
    (h : IsMiddle [x, u, v] y) (hu : xs[i]? = some u) (hv : xs[i']? = some v) :
    Between xs [i, i'] y := by
  have hfind : ∀ z ∈ [u, v], ∃ n ∈ [i, i'], xs[n]? = some z := by
    intro z hz
    rcases List.mem_cons.mp hz with rfl | hz
    · exact ⟨i, by simp, hu⟩
    · rw [List.mem_singleton.mp hz]
      exact ⟨i', by simp, hv⟩
  obtain ⟨⟨low, hlow, hle⟩, high, hhigh, hge⟩ := h.between
  obtain ⟨n, hn, hlow⟩ := hfind low hlow
  obtain ⟨m, hm, hhigh⟩ := hfind high hhigh
  exact ⟨⟨n, hn, low, hlow, hle⟩, m, hm, high, hhigh, hge⟩

/-- What is shown next to a rate replaced lies between the two other rates around it. -/
theorem between_despikedRates_near (h : band.Valid) {j k : Nat} (hj : j + 2 < points.length)
    (hk : k ∈ [j, j + 1, j + 2]) (rate : Single) :
    ∃ y, (despikedRates band (replaceRate points k rate))[j + 1]? = some y ∧
      Between (clampedRates band points) ([j, j + 1, j + 2].erase k) y := by
  have hexists : ∀ i, i ≤ j + 2 →
      ∃ x, (clampedRates band (replaceRate points k rate))[i]? = some x ∧ x.isNaN = false := by
    intro i hi
    have hlt : i < (clampedRates band (replaceRate points k rate)).length := by
      rw [length_clampedRates, length_replaceRate]
      omega
    exact ⟨_, List.getElem?_eq_getElem hlt, isNaN_of_mem_clampedRates h (List.getElem_mem hlt)⟩
  obtain ⟨a, ha, hanan⟩ := hexists j (by omega)
  obtain ⟨b, hb, hbnan⟩ := hexists (j + 1) (by omega)
  obtain ⟨c, hc, hcnan⟩ := hexists (j + 2) (by omega)
  have hmiddle := isMiddle_median hanan hbnan hcnan
  refine ⟨median a b c, getElem?_despikedRates_interior ha hb hc, ?_⟩
  simp only [List.mem_cons, List.not_mem_nil, or_false] at hk
  rcases hk with rfl | rfl | rfl
  · rw [getElem?_clampedRates_replaceRate (by omega)] at hb hc
    rw [List.erase_cons_head]
    exact between_of_isMiddle hmiddle hb hc
  · rw [getElem?_clampedRates_replaceRate (by omega)] at ha hc
    rw [List.erase_cons_tail (by simp), List.erase_cons_head]
    exact between_of_isMiddle (hmiddle.perm (List.Perm.swap a b [c])) ha hc
  · rw [getElem?_clampedRates_replaceRate (by omega)] at ha hb
    rw [List.erase_cons_tail (by simp), List.erase_cons_tail (by simp), List.erase_cons_head]
    have hrotate : ([c] ++ [a, b]).Perm ([a, b] ++ [c]) := List.perm_append_comm
    exact between_of_isMiddle (hmiddle.perm hrotate) ha hb

theorem map_place_replaceRate (points : List RatePoint) (k : Nat) (rate : Single) :
    (replaceRate points k rate).map RatePoint.place = points.map RatePoint.place := by
  refine List.ext_getElem? fun i => ?_
  unfold replaceRate
  rw [List.getElem?_map, List.getElem?_map, List.getElem?_modify]
  cases points[i]? with
  | none => simp
  | some p => by_cases hk : k = i <;> simp [hk, RatePoint.place]

/-- Points with the same rate and the same place are the same. -/
theorem getElem?_eq_of_map {points points' : List RatePoint} {j : Nat}
    (hrate : (points.map RatePoint.rate)[j]? = (points'.map RatePoint.rate)[j]?)
    (hplace : points.map RatePoint.place = points'.map RatePoint.place) :
    points[j]? = points'[j]? := by
  have hplaces := congrArg (·[j]?) hplace
  simp only [List.getElem?_map] at hrate hplaces
  cases hp : points[j]? with
  | none =>
      cases hq : points'[j]? with
      | none => rfl
      | some q => simp [hp, hq] at hrate
  | some p =>
      cases hq : points'[j]? with
      | none => simp [hp, hq] at hrate
      | some q =>
          rw [hp, hq] at hrate hplaces
          obtain ⟨htime, htemperature⟩ := TemperaturePoint.mk.inj (Option.some.inj hplaces)
          have hsame : p.rate = q.rate := Option.some.inj hrate
          cases p
          cases q
          simp_all

/--
**Despiking is a median of clamped rates, and one outlier moves nothing out of place.**

With a band that passes `validate`, and whatever the rates, NaN and infinities included: every rate
shown is finite and within the band, the first and the last one are the clamped rates, and each
other one is the middle one of the three clamped rates around it. So when the rate of one point is
replaced by any other, what is shown at and next to it, at a point with two neighbours, is between
the two other clamped rates around there, and all points farther away stay what they were.
-/
theorem despike_median (band : SpikeBand) (points : List RatePoint)
    (hband : band.validate = .ok ()) :
    (∀ x, band.Clamped x (band.clamp x)) ∧
      (∀ y ∈ despikedRates band points, y.isFinite = true ∧ band.Contains y) ∧
      (despikedRates band points).length = points.length ∧
      (despikedRates band points).head? = (clampedRates band points).head? ∧
      (despikedRates band points).getLast? = (clampedRates band points).getLast? ∧
      (∀ j a b c, (clampedRates band points)[j]? = some a →
        (clampedRates band points)[j + 1]? = some b →
        (clampedRates band points)[j + 2]? = some c →
          ∃ y, (despikedRates band points)[j + 1]? = some y ∧ IsMiddle [a, b, c] y) ∧
      (∀ k rate j, j + 2 < points.length → k ∈ [j, j + 1, j + 2] →
        ∃ y, (despikedRates band (replaceRate points k rate))[j + 1]? = some y ∧
          Between (clampedRates band points) ([j, j + 1, j + 2].erase k) y) ∧
      (∀ k rate j, k + 1 < j ∨ j + 1 < k →
        (despike band (replaceRate points k rate))[j]? = (despike band points)[j]?) := by
  have hvalid := SpikeBand.validate_eq_ok_iff.mp hband
  have hnan : ∀ {j : Nat} {x : Single}, (clampedRates band points)[j]? = some x → x.isNaN = false :=
    fun hx => isNaN_of_mem_clampedRates hvalid (List.mem_of_getElem? hx)
  refine ⟨hvalid.clamped_clamp, ?_, length_despikedRates band points,
    head?_despikedRates band points, getLast?_despikedRates band points, ?_, ?_, ?_⟩
  · intro y hy
    obtain ⟨p, hp, rfl⟩ := List.mem_map.mp hy
    have hcontains := forall_despike (P := band.Contains)
      (fun p _ => hvalid.contains_clamp p.rate) p hp
    exact ⟨hvalid.isFinite_of_contains hcontains, hcontains⟩
  · intro j a b c ha hb hc
    exact ⟨median a b c, getElem?_despikedRates_interior ha hb hc,
      isMiddle_median (hnan ha) (hnan hb) (hnan hc)⟩
  · intro k rate j hj hk
    exact between_despikedRates_near hvalid hj hk rate
  · intro k rate j hfar
    refine getElem?_eq_of_map (getElem?_despikedRates_far hfar rate) ?_
    rw [map_place_despike, map_place_despike, map_place_replaceRate]

/-- A NaN and a dropout among five rates; with an infinity in place of the NaN the others hold. -/
theorem despike_median_dropout :
    let points : List RatePoint :=
      [⟨0, 90, 500⟩, ⟨1, 91, 10⟩, ⟨2, 92, .nan⟩, ⟨3, 93, 12⟩, ⟨4, 94, Binary.neg 300⟩]
    SpikeBand.default.validate = .ok () ∧
      despikedRates SpikeBand.default points = [60, 10, 10, Binary.neg 30, Binary.neg 30] ∧
      (∃ y,
        (despikedRates SpikeBand.default (replaceRate points 2 (.infinity false)))[2]? = some y ∧
        Between (clampedRates SpikeBand.default points) [1, 3] y) ∧
      (despike SpikeBand.default (replaceRate points 2 (.infinity false)))[4]? =
        some ⟨4, 94, Binary.neg 30⟩ := by
  intro points
  have hvalid : SpikeBand.default.validate = .ok () := by decide +kernel
  obtain ⟨-, -, -, -, -, -, hnear, hfar⟩ := despike_median SpikeBand.default points hvalid
  refine ⟨hvalid, by decide +kernel, hnear 2 _ 1 (by decide) (by decide), ?_⟩
  rw [hfar 2 _ 4 (by decide)]
  decide +kernel

end Rise

end RoastTelemetry
