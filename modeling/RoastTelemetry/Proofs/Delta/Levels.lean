import RoastTelemetry.Delta.Codec
import RoastTelemetry.Proofs.Binary.Whole

/-!
# Readings, steps and levels

A codec counts a reading in whole steps. The level of a reading is that count as an integer, and
the grid point of a level is what the decoder makes of it: the level divided by the precision,
rounded to double and then to single precision.

Two facts carry the whole delta chain. A level below `2 ^ 23` is found again from its grid point,
because the two roundings and the multiplication back move it by less than half a step. And the
grid point of the level of a reading is close to that reading.
-/

namespace RoastTelemetry.Codec

open Binary (roundAway abs_roundAway_sub_le roundAway_eq_of_abs_sub_lt)

variable (c : Codec)

/-- Steps per unit. -/
def perUnit : ℚ := c.precision.value

/-- The whole number of steps nearest to a reading, as the codec finds it. -/
def level (r : ℚ) : ℤ := roundAway (Format.double.nearest (r * c.perUnit))

/-- What a level is decoded to. -/
def gridPoint (n : ℤ) : ℚ := Format.single.nearest (Format.double.nearest (n / c.perUnit))

/-- A number between the levels that decoded values can tell apart. -/
def maxLevel : ℤ := 2 ^ 23

/-- A reading within the range for which the finest precision is meant. -/
def Moderate (x : Single) : Prop := x.isFinite = true ∧ |x.value| ≤ 4096

/-- A decoded value as close to its source as half a step and half the spacing of single-precision
values allow. -/
def Within (x z : Single) : Prop :=
  z.isFinite = true ∧ |z.value - x.value| ≤ 1 / (2 * c.precision.value) + 1 / 2 ^ 11

instance (x z : Single) : Decidable (c.Within x z) := inferInstanceAs (Decidable (_ ∧ _))

variable {c}

/-! ## The precision -/

theorem denotes_perUnit : c.precision.Denotes c.perUnit :=
  Binary.denotes_value c.precision_range.1

theorem perUnit_pos : 0 < c.perUnit :=
  (Binary.denotes_zero.lt_iff denotes_perUnit).mp c.precision_range.2.1

theorem perUnit_le : c.perUnit ≤ 1000 := by
  have hmax : maxPrecision.Denotes ((1000 : Nat) : ℚ) :=
    Binary.denotes_ofNat_double (n := 1000) (by norm_num)
  have h := (denotes_perUnit.le_iff hmax).mp c.precision_range.2.2
  exact_mod_cast h

/-! ## Relative errors of the two formats -/

theorem double_nearest_error {r : ℚ} (h : 1 / 2 ^ 100 ≤ |r|) :
    |Format.double.nearest r - r| ≤ |r| / 2 ^ 53 :=
  Format.nearest_error_of_le (k := 100) (by decide) h

theorem single_nearest_error {r : ℚ} (h : 1 / 2 ^ 100 ≤ |r|) :
    |Format.single.nearest r - r| ≤ |r| / 2 ^ 24 :=
  Format.nearest_error_of_le (k := 100) (by decide) h

/-- A number that moves by less than half its size stays at least half as large. -/
theorem half_abs_le_of_error {x y e : ℚ} (he : 2 ≤ e) (h : |x - y| ≤ |y| / e) :
    |y| / 2 ≤ |x| := by
  have hhalf : |y| / e ≤ |y| / 2 := div_le_div_of_nonneg_left (abs_nonneg y) (by norm_num) he
  have hback := abs_sub_abs_le_abs_sub y x
  rw [abs_sub_comm] at hback
  linarith

/-- A relative error stays the same in other units. -/
theorem error_mul {x y e p : ℚ} (hp : 0 < p) (h : |x - y| ≤ |y| / e) :
    |x * p - y * p| ≤ |y * p| / e := by
  rw [← sub_mul, abs_mul, abs_mul, abs_of_pos hp]
  calc |x - y| * p ≤ |y| / e * p := mul_le_mul_of_nonneg_right h hp.le
    _ = |y| * p / e := by ring

/-- To double, to single, to double again: below `2 ^ 23` that comes to less than a half. -/
theorem three_errors_lt {a b d e : ℚ} (ha : |a| ≤ 2 ^ 23 - 1) (h₁ : |b - a| ≤ |a| / 2 ^ 53)
    (h₂ : |d - b| ≤ |b| / 2 ^ 24) (h₃ : |e - d| ≤ |d| / 2 ^ 53) : |e - a| < 1 / 2 := by
  have hb := abs_sub_abs_le_abs_sub b a
  have hd := abs_sub_abs_le_abs_sub d b
  have hda := abs_sub_le d b a
  have hea := abs_sub_le e d a
  norm_num at *
  linarith

/-! ## The level of a reading -/

@[simp]
theorem level_zero : c.level 0 = 0 := by
  unfold level
  rw [zero_mul, Format.nearest_zero, Binary.roundAway_zero]

@[simp]
theorem gridPoint_zero : c.gridPoint 0 = 0 := by
  unfold gridPoint
  rw [Int.cast_zero, zero_div, Format.nearest_zero, Format.nearest_zero]

/-- Counting in steps is off by half a step, and a little for the rounded product. -/
theorem abs_level_sub_le (r : ℚ) : |(c.level r : ℚ) - r * c.perUnit| ≤
    1 / 2 + |r * c.perUnit| / 2 ^ 53 := by
  have hround := abs_roundAway_sub_le (Format.double.nearest (r * c.perUnit))
  rcases le_or_gt (1 / 2 ^ 100) |r * c.perUnit| with hbig | hsmall
  · have herr := double_nearest_error hbig
    calc |(c.level r : ℚ) - r * c.perUnit|
        = |((c.level r : ℚ) - Format.double.nearest (r * c.perUnit)) +
            (Format.double.nearest (r * c.perUnit) - r * c.perUnit)| := by ring_nf
      _ ≤ |(c.level r : ℚ) - Format.double.nearest (r * c.perUnit)| +
            |Format.double.nearest (r * c.perUnit) - r * c.perUnit| := abs_add_le _ _
      _ ≤ 1 / 2 + |r * c.perUnit| / 2 ^ 53 := by unfold level; linarith
  · -- far below half a step: the level is zero
    have hquarter : Format.double.Representable ((1 : ℤ) / 2 ^ 2) :=
      Format.representable_intCast_div (by decide) (by decide)
    have hle : |Format.double.nearest (r * c.perUnit)| ≤ (1 : ℤ) / 2 ^ 2 := by
      refine Format.abs_nearest_le hquarter (hsmall.le.trans ?_)
      norm_num
    have hzero : c.level r = 0 := by
      refine roundAway_eq_of_abs_sub_lt ?_
      rw [Int.cast_zero, sub_zero]
      exact lt_of_le_of_lt hle (by norm_num)
    rw [hzero, Int.cast_zero, zero_sub, abs_neg]
    have hnonneg := abs_nonneg (r * c.perUnit)
    have hhalf : (1 : ℚ) / 2 ^ 100 ≤ 1 / 2 := by norm_num
    linarith [div_nonneg hnonneg (by positivity : (0 : ℚ) ≤ 2 ^ 53)]

theorem abs_mul_perUnit (r : ℚ) : |r * c.perUnit| = |r| * c.perUnit := by
  rw [abs_mul, abs_of_pos c.perUnit_pos]

/-- The same in the unit of the reading: half a step, and a little. -/
theorem abs_level_div_sub_le (r : ℚ) :
    |(c.level r : ℚ) / c.perUnit - r| ≤ 1 / (2 * c.perUnit) + |r| / 2 ^ 53 := by
  have hp := c.perUnit_pos
  have heq : (c.level r : ℚ) / c.perUnit - r = (c.level r - r * c.perUnit) / c.perUnit := by
    field_simp
  rw [heq, abs_div, abs_of_pos hp, div_le_iff₀ hp]
  have hsub := c.abs_level_sub_le r
  rw [abs_mul_perUnit] at hsub
  have hscale : (1 / (2 * c.perUnit) + |r| / 2 ^ 53) * c.perUnit =
      1 / 2 + |r| * c.perUnit / 2 ^ 53 := by
    field_simp
  rwa [hscale]

/-- The level of a moderate reading. -/
theorem abs_level_le {r : ℚ} (h : |r| ≤ 4096) : |c.level r| ≤ 4096000 := by
  have hp := c.perUnit_pos
  have hp' := c.perUnit_le
  have hrep : Format.double.Representable ((4096000 : ℤ) : ℚ) :=
    Format.representable_intCast (by decide)
  have hprod : |r * c.perUnit| ≤ ((4096000 : ℤ) : ℚ) := by
    rw [abs_mul_perUnit]
    push_cast
    nlinarith [abs_nonneg r]
  have hnear := Format.abs_nearest_le hrep hprod
  have hround := abs_roundAway_sub_le (Format.double.nearest (r * c.perUnit))
  have hlevel : |(c.level r : ℚ)| < 4096001 := by
    have htri := abs_sub_abs_le_abs_sub (c.level r : ℚ) (Format.double.nearest (r * c.perUnit))
    unfold level at htri ⊢
    push_cast at hnear
    linarith
  have hint : |c.level r| < 4096001 := by exact_mod_cast hlevel
  omega

/-- A level other than zero takes steps that are not too long: counted back, it is still at most
twice the range. -/
theorem abs_level_div_le_two_pow {r : ℚ} {k : Nat} (h : |r| ≤ 2 ^ k) :
    |(c.level r : ℚ) / c.perUnit| ≤ 2 ^ (k + 1) := by
  have hp := c.perUnit_pos
  rw [abs_div, abs_of_pos hp, div_le_iff₀ hp]
  rcases eq_or_ne (c.level r) 0 with h0 | h0
  · rw [h0, Int.cast_zero, abs_zero]
    positivity
  · have hone : (1 : ℚ) ≤ |(c.level r : ℚ)| := by exact_mod_cast Int.one_le_abs h0
    have hnear : |Format.double.nearest (r * c.perUnit)| ≤ c.perUnit * 2 ^ k := by
      -- the product with a power of two is exact
      refine Format.abs_nearest_le (c.denotes_perUnit.representable.mul_two_pow k) ?_
      rw [abs_mul_perUnit, mul_comm c.perUnit]
      exact mul_le_mul_of_nonneg_right h hp.le
    have hround := abs_roundAway_sub_le (Format.double.nearest (r * c.perUnit))
    have htri := abs_sub_abs_le_abs_sub (c.level r : ℚ) (Format.double.nearest (r * c.perUnit))
    unfold level at htri hone ⊢
    rw [pow_succ]
    linarith

theorem abs_level_div_le {r : ℚ} (h : |r| ≤ 4096) : |(c.level r : ℚ) / c.perUnit| ≤ 8192 := by
  have hpow := abs_level_div_le_two_pow (c := c) (r := r) (k := 12) (by norm_num; exact h)
  norm_num at hpow
  exact hpow

/-! ## From a level to its grid point and back -/

/-- A step is a thousandth at least. -/
theorem le_abs_div_perUnit {n : ℤ} (h0 : n ≠ 0) : 1 / 1000 ≤ |(n : ℚ) / c.perUnit| := by
  have hp := c.perUnit_pos
  have hp' := c.perUnit_le
  have hone : (1 : ℚ) ≤ |(n : ℚ)| := by exact_mod_cast Int.one_le_abs h0
  rw [abs_div, abs_of_pos hp, div_le_div_iff₀ (by norm_num) hp]
  linarith

/-- The errors of the two roundings, neither of which sees a subnormal number. -/
theorem gridPoint_errors {n : ℤ} (h0 : n ≠ 0) :
    |Format.double.nearest (n / c.perUnit) - n / c.perUnit| ≤ |(n : ℚ) / c.perUnit| / 2 ^ 53 ∧
      |c.gridPoint n - Format.double.nearest (n / c.perUnit)| ≤
        |Format.double.nearest (n / c.perUnit)| / 2 ^ 24 := by
  have hfar := c.le_abs_div_perUnit h0
  have herr := double_nearest_error (le_trans (by norm_num) hfar)
  have hfar' := half_abs_le_of_error (by norm_num) herr
  exact ⟨herr, single_nearest_error (le_trans (by norm_num; linarith) hfar')⟩

/--
**A level is found again from its grid point.**

Two roundings and the product back move a level by its own size times a little more than
`1 / 2 ^ 24`. Below `2 ^ 23` that is less than half a step, whatever the precision.
-/
theorem level_gridPoint {n : ℤ} (h : |n| < maxLevel) : c.level (c.gridPoint n) = n := by
  rcases eq_or_ne n 0 with h0 | h0
  · rw [h0, gridPoint_zero, level_zero]
  have hp := c.perUnit_pos
  have hone : (1 : ℚ) ≤ |(n : ℚ)| := by exact_mod_cast Int.one_le_abs h0
  have htop : |(n : ℚ)| ≤ 2 ^ 23 - 1 := by
    have hint : |n| ≤ 2 ^ 23 - 1 := by unfold maxLevel at h; omega
    exact_mod_cast hint
  obtain ⟨herr₁, herr₂⟩ := c.gridPoint_errors h0
  -- the same distances, counted in steps
  have hsteps₁ := error_mul hp herr₁
  have hsteps₂ := error_mul hp herr₂
  have hfar₂ := half_abs_le_of_error (by norm_num) hsteps₁
  have hfar₃ : 1 / 4 ≤ |c.gridPoint n * c.perUnit| := by
    have hhalf := half_abs_le_of_error (by norm_num) hsteps₂
    rw [div_mul_cancel₀ _ hp.ne'] at hfar₂
    linarith
  rw [div_mul_cancel₀ _ hp.ne'] at hsteps₁
  have herr₃ := double_nearest_error (le_trans (by norm_num) hfar₃)
  exact roundAway_eq_of_abs_sub_lt (three_errors_lt htop hsteps₁ hsteps₂ herr₃)

/-- The grid point of the level of a moderate reading is close to the reading. -/
theorem abs_gridPoint_level_sub_le {r : ℚ} (h : |r| ≤ 4096) :
    |c.gridPoint (c.level r) - r| ≤ 1 / (2 * c.perUnit) + 1 / 2 ^ 11 := by
  have hp' := c.perUnit_le
  have hlevel := c.abs_level_div_sub_le r
  rcases eq_or_ne (c.level r) 0 with h0 | h0
  · rw [h0, Int.cast_zero, zero_div] at hlevel
    rw [h0, gridPoint_zero]
    refine hlevel.trans ?_
    norm_num
    linarith
  have hrange := c.abs_level_div_le h
  have herr₁ := (c.gridPoint_errors h0).1
  have hrange₁ : |Format.double.nearest ((c.level r : ℚ) / c.perUnit)| ≤ 2 ^ 13 :=
    Format.abs_nearest_le (Format.representable_two_pow 13) (by linarith)
  -- below 8192 single-precision values are 1 / 2048 apart
  have herr₂ : |c.gridPoint (c.level r) - Format.double.nearest ((c.level r : ℚ) / c.perUnit)| ≤
      2 ^ 138 / (2 * Format.single.one) := by
    refine Format.nearest_error_le_pow ?_
    have hone : (Format.single.one : ℚ) = 2 ^ 149 := by norm_num [Format.one_eq,
      Format.places_eq, Format.single]
    rw [hone]
    have hbits : (2 : ℚ) ^ Format.single.fractionBits = 2 ^ 23 := rfl
    rw [hbits]
    linarith
  have hspacing : (2 : ℚ) ^ 138 / (2 * Format.single.one) = 1 / 2 ^ 12 := by
    norm_num [Format.one_eq, Format.places_eq, Format.single]
  rw [hspacing] at herr₂
  have htri₁ := abs_sub_le (c.gridPoint (c.level r))
    (Format.double.nearest ((c.level r : ℚ) / c.perUnit)) r
  have htri₂ := abs_sub_le (Format.double.nearest ((c.level r : ℚ) / c.perUnit))
    ((c.level r : ℚ) / c.perUnit) r
  norm_num at *
  linarith

/-- A grid point that is close to a moderate reading is not far out. -/
theorem abs_div_perUnit_le_of_close {n : ℤ} {r : ℚ} (hr : |r| ≤ 4096)
    (h : |c.gridPoint n - r| ≤ 1 / (2 * c.perUnit) + 1 / 2 ^ 11) :
    |(n : ℚ) / c.perUnit| ≤ 2 ^ 14 := by
  rcases eq_or_ne n 0 with h0 | h0
  · rw [h0, Int.cast_zero, zero_div, abs_zero]
    norm_num
  have hp := c.perUnit_pos
  obtain ⟨herr₁, herr₂⟩ := c.gridPoint_errors h0
  -- half a step is at most half of what `n` steps come to
  have hhalf : 1 / (2 * c.perUnit) ≤ |(n : ℚ) / c.perUnit| / 2 := by
    have hone : (1 : ℚ) ≤ |(n : ℚ)| := by exact_mod_cast Int.one_le_abs h0
    rw [abs_div, abs_of_pos hp, div_div, mul_comm c.perUnit]
    exact div_le_div_of_nonneg_right hone (by positivity)
  have htri₁ := abs_sub_abs_le_abs_sub (c.gridPoint n) r
  have htri₂ := abs_sub_abs_le_abs_sub (Format.double.nearest ((n : ℚ) / c.perUnit))
    (c.gridPoint n)
  have htri₃ := abs_sub_abs_le_abs_sub ((n : ℚ) / c.perUnit)
    (Format.double.nearest ((n : ℚ) / c.perUnit))
  rw [abs_sub_comm] at herr₁ herr₂
  norm_num at *
  linarith

/-- Readings that are close to each other are at most one level apart. -/
theorem abs_level_sub_level_le {r s : ℚ} (hr : |r| ≤ 4096)
    (h : |s - r| ≤ 1 / (2 * c.perUnit) + 1 / 2 ^ 11) : |c.level s - c.level r| ≤ 1 := by
  have hp := c.perUnit_pos
  have hp' := c.perUnit_le
  have hlr := c.abs_level_sub_le r
  have hls := c.abs_level_sub_le s
  have hdist : |s * c.perUnit - r * c.perUnit| ≤ 1 / 2 + 1000 / 2 ^ 11 := by
    rw [← sub_mul, abs_mul, abs_of_pos hp]
    calc |s - r| * c.perUnit ≤ (1 / (2 * c.perUnit) + 1 / 2 ^ 11) * c.perUnit := by gcongr
      _ = 1 / 2 + c.perUnit / 2 ^ 11 := by field_simp
      _ ≤ 1 / 2 + 1000 / 2 ^ 11 := by gcongr
  have hsize : |r * c.perUnit| ≤ 4096000 := by
    rw [abs_mul_perUnit]
    calc |r| * c.perUnit ≤ 4096 * 1000 := by gcongr
      _ = 4096000 := by norm_num
  have hsize' := abs_sub_abs_le_abs_sub (s * c.perUnit) (r * c.perUnit)
  have htri₁ := abs_sub_le (c.level s : ℚ) (s * c.perUnit) (c.level r)
  have htri₂ := abs_sub_le (s * c.perUnit) (r * c.perUnit) (c.level r : ℚ)
  rw [abs_sub_comm] at hlr
  have hlt : |((c.level s - c.level r : ℤ) : ℚ)| < 2 := by
    rw [Int.cast_sub]
    norm_num at *
    linarith
  have hint : |c.level s - c.level r| < 2 := by exact_mod_cast hlt
  omega

/-! ## What the arithmetic of the codec denotes -/

theorem denotes_steps {x : Double} {r : ℚ} (hx : x.Denotes r) (h : |r| ≤ 2 ^ 128) :
    (c.steps x).Denotes (c.level r) := by
  have hprod : |r * c.perUnit| ≤ 2 ^ 138 := by
    have hp := c.perUnit_pos
    have hp' := c.perUnit_le
    rw [abs_mul_perUnit]
    calc |r| * c.perUnit ≤ 2 ^ 128 * 1000 := by gcongr
      _ ≤ 2 ^ 138 := by norm_num
  have hnear := Format.abs_nearest_le (Format.double.representable_two_pow 138) hprod
  have hmul := (hx.mul c.denotes_perUnit).denotes
    (lt_of_le_of_lt hnear (Format.two_pow_lt_limit_double (by decide)))
  refine hmul.round.denotes_exact hmul.representable_roundAway
    (lt_of_le_of_lt ?_ (Format.two_pow_lt_limit_double (k := 139) (by decide)))
  have hround := abs_roundAway_sub_le (Format.double.nearest (r * c.perUnit))
  have htri := abs_sub_abs_le_abs_sub (roundAway (Format.double.nearest (r * c.perUnit)) : ℚ)
    (Format.double.nearest (r * c.perUnit))
  norm_num at *
  linarith

/-- Counting a finite reading in steps gives its level. -/
theorem denotes_steps_widen {x : Single} {r : ℚ} (hx : x.Denotes r) :
    (c.steps x.widen).Denotes (c.level r) := by
  refine denotes_steps hx.widen ?_
  have h := hx.abs_lt_limit
  rw [Format.limit_single] at h
  exact h.le

/-- Levels have codes, and so have their sums and differences. -/
theorem representable_level {n : ℤ} (h : |n| < maxLevel) :
    Format.double.Representable n ∧ |(n : ℚ)| < Format.double.limit := by
  unfold maxLevel at h
  have hlt : n.natAbs < 2 ^ 23 := by
    rw [abs_lt] at h
    omega
  refine ⟨Format.representable_intCast (Nat.le_of_lt (Nat.lt_of_lt_of_le hlt (by decide))), ?_⟩
  refine lt_trans ?_ (Format.two_pow_lt_limit_double (k := 23) (by decide))
  exact_mod_cast h

theorem denotes_steps_add {x y : Double} {a b : ℤ} (hx : x.Denotes a) (hy : y.Denotes b)
    (h : |a + b| < maxLevel) : (x + y).Denotes ((a + b : ℤ) : ℚ) := by
  obtain ⟨hrep, hlimit⟩ := representable_level h
  rw [Int.cast_add] at hrep hlimit ⊢
  exact (hx.add hy).denotes_exact hrep hlimit

theorem denotes_steps_sub {x y : Double} {a b : ℤ} (hx : x.Denotes a) (hy : y.Denotes b)
    (h : |a - b| < maxLevel) : (x - y).Denotes ((a - b : ℤ) : ℚ) := by
  obtain ⟨hrep, hlimit⟩ := representable_level h
  rw [Int.cast_sub] at hrep hlimit ⊢
  exact (hx.sub hy).denotes_exact hrep hlimit

/-- A level that is not too far out is brought to its grid point. -/
theorem denotes_gridPoint {x : Double} {n : ℤ} (hx : x.Denotes n)
    (h : |(n : ℚ) / c.perUnit| ≤ 2 ^ 14) : (x / c.precision).narrow.Denotes (c.gridPoint n) := by
  have hnear₁ := Format.abs_nearest_le (Format.double.representable_two_pow 14) h
  have hdiv := (hx.div c.denotes_perUnit c.perUnit_pos.ne').denotes
    (lt_of_le_of_lt hnear₁ (Format.two_pow_lt_limit_double (by decide)))
  have hnear₂ := Format.abs_nearest_le (Format.single.representable_two_pow 14) hnear₁
  exact (hdiv.convert .single).denotes
    (lt_of_le_of_lt hnear₂ (Format.two_pow_lt_limit_single (by decide)))

/-- Wherever a level is brought to, if that is finite then it is its grid point. -/
theorem denotes_gridPoint_of_isFinite {x : Double} {n : ℤ} (hx : x.Denotes n)
    (h : (x / c.precision).narrow.isFinite = true) :
    (x / c.precision).narrow.Denotes (c.gridPoint n) := by
  have hquotient := (hx.div c.denotes_perUnit c.perUnit_pos.ne').denotes_of_isFinite
    (Binary.isFinite_of_convert h)
  exact (hquotient.convert .single).denotes_of_isFinite h

/-! ## Moderate readings -/

theorem Moderate.denotes {x : Single} (h : Moderate x) : x.Denotes x.value := ⟨h.1, rfl⟩

theorem level_lt_maxLevel {x : Single} (h : Moderate x) : |c.level x.value| < maxLevel :=
  lt_of_le_of_lt (c.abs_level_le h.2) (by decide)

/-- Between moderate readings differences of levels are below `2 ^ 23`. -/
theorem abs_level_sub_lt {x y : Single} (hx : Moderate x) (hy : Moderate y) :
    |c.level y.value - c.level x.value| < maxLevel := by
  have hlx := c.abs_level_le hx.2
  have hly := c.abs_level_le hy.2
  unfold maxLevel
  rw [abs_lt]
  rw [abs_le] at hlx hly
  omega

/-- There is room for a step more or less. -/
theorem abs_level_add_lt {x : Single} (hx : Moderate x) {slip : ℤ} (hslip : |slip| ≤ 1) :
    |c.level x.value + slip| < maxLevel := by
  have hlx := c.abs_level_le hx.2
  unfold maxLevel
  rw [abs_lt]
  rw [abs_le] at hlx hslip
  omega

/-- What is stored for a moderate reading after another one: the difference of their levels. -/
theorem denotes_difference {x y : Single} (hx : Moderate x) (hy : Moderate y) :
    ((c.steps y.widen - c.steps x.widen) / c.precision).narrow.Denotes
      (c.gridPoint (c.level y.value - c.level x.value)) := by
  have hsub := denotes_steps_sub (c.denotes_steps_widen hy.denotes)
    (c.denotes_steps_widen hx.denotes) (abs_level_sub_lt hx hy)
  refine denotes_gridPoint hsub ?_
  have hqx := c.abs_level_div_le hx.2
  have hqy := c.abs_level_div_le hy.2
  rw [Int.cast_sub, sub_div]
  have htri := abs_sub (c.level y.value / c.perUnit : ℚ) (c.level x.value / c.perUnit)
  norm_num at *
  linarith

/-- What is stored for a moderate reading after none: its grid point. -/
theorem denotes_roundToStep {y : Single} (hy : Moderate y) :
    (c.roundToStep y.widen).narrow.Denotes (c.gridPoint (c.level y.value)) := by
  refine denotes_gridPoint (c.denotes_steps_widen hy.denotes) ?_
  have hqy := c.abs_level_div_le hy.2
  norm_num at *
  linarith

/--
The step count that the decoder arrives at. If the decoded value before is `slip` steps off its
source, then it arrives `slip` steps off again.
-/
theorem denotes_landing {x y z : Single} (slip : ℤ) (hx : Moderate x) (hy : Moderate y)
    (hz : z.isFinite = true) (hslip : c.level z.value = c.level x.value + slip)
    (hsmall : |slip| ≤ 1) :
    (c.steps z.widen +
        c.steps ((c.steps y.widen - c.steps x.widen) / c.precision).narrow.widen).Denotes
      ((c.level y.value + slip : ℤ) : ℚ) := by
  have hstored := c.denotes_steps_widen (c.denotes_difference hx hy)
  rw [level_gridPoint (abs_level_sub_lt hx hy)] at hstored
  -- the level of the reading before cancels
  have hsum : c.level z.value + (c.level y.value - c.level x.value) = c.level y.value + slip := by
    omega
  have hland := denotes_steps_add (c.denotes_steps_widen (Binary.denotes_value hz)) hstored (by
    rw [hsum]
    exact abs_level_add_lt hy hsmall)
  rwa [hsum] at hland

end RoastTelemetry.Codec
