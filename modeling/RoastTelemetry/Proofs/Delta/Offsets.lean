import RoastTelemetry.Proofs.Delta.Alike

/-!
# Times as offsets

A time is stored as its distance from the base time, in whole steps, and restored by adding the two
up. Packing the restored time measures its distance once more, after three more roundings. For
times of ordinary size they come to much less than half a step, so the second distance is the
first one.
-/

namespace RoastTelemetry.Codec

open Binary (roundAway_eq_of_abs_sub_lt)

variable {c : Codec}

/-- A time of ordinary size, in seconds: up to some 136 years from zero. -/
def OrdinaryTime (t : Double) : Prop := t.isFinite = true ∧ |t.value| ≤ 2 ^ 32

theorem OrdinaryTime.denotes {t : Double} (h : OrdinaryTime t) : t.Denotes t.value := ⟨h.1, rfl⟩

/-- How many steps a time is from the base. -/
def distance (c : Codec) (b t : ℚ) : ℤ := c.level (Format.double.nearest (t - b))

/-- What is stored for a time. -/
def offset (c : Codec) (b t : ℚ) : ℚ := Format.double.nearest (c.distance b t / c.perUnit)

/-- The time that comes out. -/
def restoredTime (c : Codec) (b t : ℚ) : ℚ := Format.double.nearest (b + c.offset b t)

/-! ## Sizes -/

theorem abs_double_nearest_le {r : ℚ} {k : Nat} (h : |r| ≤ 2 ^ k) :
    |Format.double.nearest r| ≤ 2 ^ k :=
  Format.abs_nearest_le (Format.double.representable_two_pow k) h

/-- The error below a power of two, in double precision. -/
theorem double_nearest_error_le {r : ℚ} {k : Nat} (h : |r| ≤ 2 ^ k) :
    |Format.double.nearest r - r| ≤ 2 ^ k / 2 ^ 54 :=
  Format.nearest_error_le_two_pow (by decide) h

section Size

variable {b t : ℚ} (hb : |b| ≤ 2 ^ 32) (ht : |t| ≤ 2 ^ 32)

include hb ht

theorem abs_sub_le_two_pow : |t - b| ≤ 2 ^ 33 := by
  have htri := abs_sub t b
  norm_num at *
  linarith

theorem abs_distance_div_le : |(c.distance b t : ℚ) / c.perUnit| ≤ 2 ^ 34 :=
  abs_level_div_le_two_pow (abs_double_nearest_le (abs_sub_le_two_pow hb ht))

theorem abs_add_offset_le : |b + c.offset b t| ≤ 2 ^ 35 := by
  have hoffset : |c.offset b t| ≤ 2 ^ 34 := abs_double_nearest_le (abs_distance_div_le hb ht)
  have htri := abs_add_le b (c.offset b t)
  norm_num at *
  linarith

theorem abs_restoredTime_sub_le : |c.restoredTime b t - b| ≤ 2 ^ 36 := by
  have hrestored : |c.restoredTime b t| ≤ 2 ^ 35 :=
    abs_double_nearest_le (abs_add_offset_le hb ht)
  have htri := abs_sub (c.restoredTime b t) b
  norm_num at *
  linarith

end Size

/-! ## The distance is found again -/

/-- A number close to a whole number of steps has that level. -/
theorem level_eq_of_close {r : ℚ} {n : ℤ} (hr : |r| ≤ 2 ^ 36)
    (h : |r - n / c.perUnit| ≤ 1 / 2 ^ 17) : c.level r = n := by
  have hp := c.perUnit_pos
  have hp' := c.perUnit_le
  have hsize : |r * c.perUnit| ≤ 2 ^ 46 := by
    rw [abs_mul_perUnit]
    calc |r| * c.perUnit ≤ 2 ^ 36 * 1000 := by gcongr
      _ ≤ 2 ^ 46 := by norm_num
  have herr := double_nearest_error_le hsize
  have hsteps : |r * c.perUnit - n| ≤ 1000 / 2 ^ 17 := by
    have hscale : r * c.perUnit - n = (r - n / c.perUnit) * c.perUnit := by field_simp
    rw [hscale, abs_mul, abs_of_pos hp]
    calc |r - n / c.perUnit| * c.perUnit ≤ 1 / 2 ^ 17 * 1000 := by gcongr
      _ = 1000 / 2 ^ 17 := by ring
  refine roundAway_eq_of_abs_sub_lt ?_
  have htri := abs_sub_le (Format.double.nearest (r * c.perUnit)) (r * c.perUnit) n
  norm_num at herr hsteps ⊢
  linarith

/--
**A restored time is as many steps from the base as its source.**

The quotient, the sum and the second distance are each off by less than four millionths of a
second, and a step is a thousandth at least.
-/
theorem distance_restoredTime {b t : ℚ} (hb : |b| ≤ 2 ^ 32) (ht : |t| ≤ 2 ^ 32) :
    c.distance b (c.restoredTime b t) = c.distance b t := by
  have hquotient : |c.offset b t - c.distance b t / c.perUnit| ≤ 2 ^ 34 / 2 ^ 54 :=
    double_nearest_error_le (abs_distance_div_le hb ht)
  have hsum : |c.restoredTime b t - (b + c.offset b t)| ≤ 2 ^ 35 / 2 ^ 54 :=
    double_nearest_error_le (abs_add_offset_le hb ht)
  have hback := abs_restoredTime_sub_le (c := c) hb ht
  have hsecond := double_nearest_error_le hback
  refine level_eq_of_close (abs_double_nearest_le hback) ?_
  have htri₁ := abs_sub_le (Format.double.nearest (c.restoredTime b t - b))
    (c.restoredTime b t - b) (c.distance b t / c.perUnit)
  have htri₂ := abs_add_le (c.restoredTime b t - (b + c.offset b t))
    (c.offset b t - c.distance b t / c.perUnit)
  have hsplit : c.restoredTime b t - b - c.distance b t / c.perUnit =
      c.restoredTime b t - (b + c.offset b t) +
        (c.offset b t - c.distance b t / c.perUnit) := by ring
  rw [hsplit] at htri₁
  norm_num at *
  linarith

/-! ## In the terms of the arithmetic used -/

/-- Below a power of two that fits, an outcome is the rounded number. -/
theorem denotes_nearest {x : Double} {r : ℚ} (hx : x.Rounds r) {k : Nat} (h : |r| ≤ 2 ^ k)
    (hk : k < 1024) : x.Denotes (Format.double.nearest r) :=
  hx.denotes (lt_of_le_of_lt (abs_double_nearest_le h) (Format.two_pow_lt_limit_double hk))

/-- Counting the distance between two times in steps. -/
theorem denotes_steps_of_sub {base t : Double} {b r : ℚ} (hbase : base.Denotes b) (ht : t.Denotes r)
    (h : |r - b| ≤ 2 ^ 36) : (c.steps (t - base)).Denotes (c.distance b r) := by
  refine denotes_steps (denotes_nearest (ht.sub hbase) h (by decide)) ?_
  refine (abs_double_nearest_le h).trans ?_
  norm_num

section Restored

variable {base t : Double} (hbase : OrdinaryTime base) (ht : OrdinaryTime t)

include hbase ht

theorem denotes_distance : (c.steps (t - base)).Denotes (c.distance base.value t.value) := by
  refine denotes_steps_of_sub hbase.denotes ht.denotes ?_
  refine (abs_sub_le_two_pow hbase.2 ht.2).trans ?_
  norm_num

theorem denotes_offset : (c.roundToStep (t - base)).Denotes (c.offset base.value t.value) :=
  denotes_nearest ((denotes_distance hbase ht).div c.denotes_perUnit c.perUnit_pos.ne')
    (abs_distance_div_le hbase.2 ht.2) (by decide)

theorem denotes_restoredTime :
    (base + c.roundToStep (t - base)).Denotes (c.restoredTime base.value t.value) :=
  denotes_nearest (hbase.denotes.add (denotes_offset hbase ht)) (abs_add_offset_le hbase.2 ht.2)
    (by decide)

theorem alike_steps_restored :
    (c.steps (t - base)).Alike (c.steps (base + c.roundToStep (t - base) - base)) := by
  have hcount : (c.steps (base + c.roundToStep (t - base) - base)).Denotes
      (c.distance base.value (c.restoredTime base.value t.value)) :=
    denotes_steps_of_sub hbase.denotes (denotes_restoredTime hbase ht)
      (abs_restoredTime_sub_le hbase.2 ht.2)
  rw [distance_restoredTime hbase.2 ht.2] at hcount
  exact (denotes_distance hbase ht).alike hcount

end Restored

/-- The base time itself is restored unchanged. -/
theorem alike_restored_base {base : Double} (hbase : OrdinaryTime base) :
    base.Alike (base + c.roundToStep (base - base)) := by
  have hoffset : (c.roundToStep (base - base)).Denotes 0 := by
    have h := denotes_offset (c := c) hbase hbase
    unfold offset distance at h
    rwa [sub_self, Format.nearest_zero, level_zero, Int.cast_zero, zero_div,
      Format.nearest_zero] at h
  have hsum := hbase.denotes.add hoffset
  rw [add_zero] at hsum
  exact hbase.denotes.alike
    (hsum.denotes_exact hbase.denotes.representable hbase.denotes.abs_lt_limit)

end RoastTelemetry.Codec
