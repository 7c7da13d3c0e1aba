import RoastTelemetry.Proofs.Binary.Finite
import RoastTelemetry.Proofs.Binary.Ordered
import RoastTelemetry.Proofs.Rise.Windows
import RoastTelemetry.Rise.Smoothing

/-!
# What smoothing keeps

A smoothed rate is a weighted mean of two, each product and the sum rounded. The weights `alpha` and
`1 - alpha` need not come to one, since the difference is rounded as well, but they exceed it by at
most `2 ^ -25`. No product with the largest value is rounded up, so this is all that a mean of large
rates can gain, and it is less than half the step that would take it to infinity.

What the mean of two rates keeps holds of all smoothed rates.
-/

namespace RoastTelemetry

open Binary

namespace Rise

/-! ## Weights -/

/-- What smoothing makes of a rate that follows the smoothed rate `before`. -/
def blend (alpha before rate : Single) : Single := alpha * rate + (1 - alpha) * before

/-- The weight of the newest rate, and what is left for all before it. -/
structure Weights (alpha : Single) (a b : ℚ) : Prop where
  newest : alpha.Denotes a
  rest : (1 - alpha).Denotes b
  newest_nonneg : 0 ≤ a
  rest_nonneg : 0 ≤ b
  add_le : a + b ≤ 1 + 1 / 2 ^ 25

theorem exists_weights {alpha : Single} (hpos : 0 < alpha) (hone : alpha ≤ 1) :
    ∃ a b, Weights alpha a b := by
  have ha := denotes_value (isFinite_of_between (le_of_lt hpos) hone denotes_zero.isFinite_eq
    denotes_one.isFinite_eq)
  have h0 : 0 ≤ alpha.value := ((denotes_zero.lt_iff ha).mp hpos).le
  have h1 : alpha.value ≤ 1 := (ha.le_iff denotes_one).mp hone
  have hrest : |1 - alpha.value| ≤ 2 ^ 0 := by
    rw [abs_of_nonneg (by linarith)]
    linarith
  have hsmall := Format.abs_nearest_le (Format.single.representable_two_pow 0) hrest
  have hb := (denotes_one.sub ha).denotes
    (hsmall.trans_lt (Format.two_pow_lt_limit_single (by norm_num)))
  have herror := Format.nearest_error_le_two_pow (f := .single) (by decide) hrest
  refine ⟨_, _, ha, hb, h0, Format.nearest_nonneg (by linarith), ?_⟩
  have hle := le_of_abs_le herror
  norm_num [Format.single] at hle ⊢
  linarith

/-! ## One mean -/

/-- The sum of the two rounded products. -/
def weighted (a b r s : ℚ) : ℚ := Format.single.nearest (a * r) + Format.single.nearest (b * s)

/-- A product with a weight is no larger than that with the largest value would be. -/
theorem abs_nearest_mul_le {weight x : Single} {a r : ℚ} (hw : weight.Denotes a) (ha : 0 ≤ a)
    (hx : x.Denotes r) : |Format.single.nearest (a * r)| ≤ a * Format.single.largest := by
  have hmul : |a * r| ≤ a * Format.single.largest := by
    rw [abs_mul, abs_of_nonneg ha]
    exact mul_le_mul_of_nonneg_left hx.abs_le_largest ha
  exact (Format.abs_nearest_le_nearest hmul).trans
    (Format.nearest_mul_largest_le (by decide) hw.representable ha)

namespace Weights

variable {alpha before rate : Single} {a b r s : ℚ}

/-- Two products with the largest value exceed it by less than half the step to infinity. -/
theorem mul_largest_add_le (h : Weights alpha a b) :
    a * Format.single.largest + b * Format.single.largest ≤ 2 ^ 128 - 2 ^ 103 - 2 ^ 79 := by
  rw [Format.largest_single, ← add_mul]
  calc (a + b) * (2 ^ 128 - 2 ^ 104) ≤ (1 + 1 / 2 ^ 25) * (2 ^ 128 - 2 ^ 104) :=
        mul_le_mul_of_nonneg_right h.add_le (by norm_num)
    _ = 2 ^ 128 - 2 ^ 103 - 2 ^ 79 := by norm_num

theorem abs_weighted_le (h : Weights alpha a b) (hbefore : before.Denotes s)
    (hrate : rate.Denotes r) : |weighted a b r s| ≤ 2 ^ 128 - 2 ^ 103 - 2 ^ 79 :=
  calc |weighted a b r s|
      ≤ |Format.single.nearest (a * r)| + |Format.single.nearest (b * s)| := abs_add_le _ _
    _ ≤ a * Format.single.largest + b * Format.single.largest :=
        add_le_add (abs_nearest_mul_le h.newest h.newest_nonneg hrate)
          (abs_nearest_mul_le h.rest h.rest_nonneg hbefore)
    _ ≤ 2 ^ 128 - 2 ^ 103 - 2 ^ 79 := h.mul_largest_add_le

/-- Neither product overflows, so the mean rounds the sum of two numbers. -/
theorem rounds_blend (h : Weights alpha a b) (hbefore : before.Denotes s)
    (hrate : rate.Denotes r) : (blend alpha before rate).Rounds (weighted a b r s) := by
  have hsum := h.mul_largest_add_le
  have hlargest : 0 ≤ Format.single.largest := Format.single.magnitude_nonneg _
  have ha := mul_nonneg h.newest_nonneg hlargest
  have hb := mul_nonneg h.rest_nonneg hlargest
  have hlimit : (2 : ℚ) ^ 128 - 2 ^ 103 - 2 ^ 79 < Format.single.limit := by
    rw [Format.limit_single]
    norm_num
  have hleft := abs_nearest_mul_le h.newest h.newest_nonneg hrate
  have hright := abs_nearest_mul_le h.rest h.rest_nonneg hbefore
  have hnewest := (h.newest.mul hrate).denotes (by linarith)
  exact hnewest.add ((h.rest.mul hbefore).denotes (by linarith))

/-- **The mean of two finite rates is finite**, even of the largest ones. -/
theorem isFinite_blend (h : Weights alpha a b) (hbefore : before.isFinite = true)
    (hrate : rate.isFinite = true) : (blend alpha before rate).isFinite = true := by
  have hbefore := denotes_value hbefore
  have hrate := denotes_value hrate
  have hsize := h.abs_weighted_le hbefore hrate
  refine ((h.rounds_blend hbefore hrate).denotes ?_).isFinite_eq
  have herror := Format.nearest_error_le_two_pow (f := .single) (by decide) (k := 128)
    (hsize.trans (by norm_num))
  have hsub := abs_sub_abs_le_abs_sub (Format.single.nearest (weighted a b rate.value before.value))
    (weighted a b rate.value before.value)
  have hhalf : (2 : ℚ) ^ 128 / 2 ^ (Format.single.fractionBits + 2) = 2 ^ 103 := by
    norm_num [Format.single]
  rw [Format.limit_single]
  rw [hhalf] at herror
  linarith

theorem weighted_mono (h : Weights alpha a b) {r' s' : ℚ} (hr : r ≤ r') (hs : s ≤ s') :
    weighted a b r s ≤ weighted a b r' s' :=
  add_le_add (Format.nearest_mono (mul_le_mul_of_nonneg_left hr h.newest_nonneg))
    (Format.nearest_mono (mul_le_mul_of_nonneg_left hs h.rest_nonneg))

/-- The mean rises with both rates. -/
theorem blend_le_blend (h : Weights alpha a b) {before' rate' : Single} (hs : before ≤ before')
    (hr : rate ≤ rate') (hbefore : before.isFinite = true) (hbefore' : before'.isFinite = true)
    (hrate : rate.isFinite = true) (hrate' : rate'.isFinite = true) :
    blend alpha before rate ≤ blend alpha before' rate' := by
  have hb := denotes_value hbefore
  have hb' := denotes_value hbefore'
  have hq := denotes_value hrate
  have hq' := denotes_value hrate'
  exact (h.rounds_blend hb hq).le (h.rounds_blend hb' hq')
    (h.weighted_mono ((hq.le_iff hq').mp hr) ((hb.le_iff hb').mp hs))

end Weights

/-! ## All smoothed rates -/

variable {alpha before : Single} {points : List RatePoint}

theorem smoothFrom_cons (p : RatePoint) (rest : List RatePoint) :
    smoothFrom alpha before (p :: rest) =
      { p with rate := blend alpha before p.rate } ::
        smoothFrom alpha (blend alpha before p.rate) rest := rfl

/-- What the mean of two rates keeps, and all rates have, all smoothed rates have. -/
theorem forall_smoothFrom {P : Single → Prop}
    (hblend : ∀ before rate, P before → P rate → P (blend alpha before rate))
    (hpoints : ∀ p ∈ points, P p.rate) (hbefore : P before) :
    ∀ p ∈ smoothFrom alpha before points, P p.rate := by
  induction points generalizing before with
  | nil => exact fun p hp => absurd hp List.not_mem_nil
  | cons q rest ih =>
      have hq := hblend before q.rate hbefore (hpoints q List.mem_cons_self)
      rw [smoothFrom_cons]
      intro p hp
      rcases List.mem_cons.mp hp with rfl | hp
      · exact hq
      · exact ih (fun p hp => hpoints p (List.mem_cons_of_mem q hp)) hq p hp

theorem forall_smooth {P : Single → Prop}
    (hblend : ∀ before rate, P before → P rate → P (blend alpha before rate))
    (hpoints : ∀ p ∈ points, P p.rate) : ∀ p ∈ smooth alpha points, P p.rate := by
  cases points with
  | nil => exact fun p hp => absurd hp List.not_mem_nil
  | cons q rest =>
      have hq := hpoints q List.mem_cons_self
      intro p hp
      rcases List.mem_cons.mp hp with rfl | hp
      · exact hq
      · exact forall_smoothFrom hblend (fun p hp => hpoints p (List.mem_cons_of_mem q hp)) hq p hp

/-- Smoothing moves no point. -/
theorem map_place_smoothFrom (alpha before : Single) (points : List RatePoint) :
    (smoothFrom alpha before points).map RatePoint.place = points.map RatePoint.place := by
  induction points generalizing before with
  | nil => rfl
  | cons p rest ih =>
      rw [smoothFrom_cons, List.map_cons, List.map_cons, ih]
      rfl

theorem map_place_smooth (alpha : Single) (points : List RatePoint) :
    (smooth alpha points).map RatePoint.place = points.map RatePoint.place := by
  cases points with
  | nil => rfl
  | cons p rest =>
      unfold smooth
      rw [List.map_cons, List.map_cons, map_place_smoothFrom]

/-! ## More points afterwards -/

theorem isPrefix_smoothFrom (alpha before : Single) {points longer : List RatePoint}
    (h : points <+: longer) :
    smoothFrom alpha before points <+: smoothFrom alpha before longer := by
  induction points generalizing before longer with
  | nil => exact List.nil_prefix
  | cons p rest ih =>
      obtain ⟨more, rfl⟩ := h
      rw [List.cons_append, smoothFrom_cons, smoothFrom_cons]
      exact List.cons_prefix_cons.mpr ⟨rfl, ih _ (List.prefix_append rest more)⟩

/-- Smoothing looks back only. -/
theorem isPrefix_smooth (alpha : Single) {points longer : List RatePoint}
    (h : points <+: longer) : smooth alpha points <+: smooth alpha longer := by
  cases points with
  | nil => exact List.nil_prefix
  | cons p rest =>
      obtain ⟨more, rfl⟩ := h
      exact List.cons_prefix_cons.mpr
        ⟨rfl, isPrefix_smoothFrom alpha p.rate (List.prefix_append rest more)⟩

theorem dropLast_smooth (alpha : Single) (points : List RatePoint) :
    (smooth alpha points).dropLast = smooth alpha points.dropLast := by
  have h := isPrefix_smooth alpha (List.dropLast_prefix points)
  rw [List.prefix_iff_eq_take, length_smooth, List.length_dropLast] at h
  rw [h, List.dropLast_eq_take, length_smooth]

end Rise

end RoastTelemetry
