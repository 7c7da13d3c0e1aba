import RoastTelemetry.Proofs.Binary.Value
import Mathlib.Algebra.Order.Floor.Ring
import Mathlib.Data.Int.ConditionallyCompleteOrder
import Mathlib.Data.Rat.Floor

/-!
# Rounding to a whole number

A value is rounded to the nearest integer, a half going away from zero. The integer has a code in
the same format, so the rounding to a value that follows loses nothing.
-/

namespace RoastTelemetry

namespace Binary

variable {f : Format} {x : Binary f} {r : ℚ}

/-- The nearest integer, a half going away from zero. -/
def roundAway (r : ℚ) : ℤ := if r < 0 then -⌊-r + 1 / 2⌋ else ⌊r + 1 / 2⌋

theorem roundAway_neg (r : ℚ) : roundAway (-r) = -roundAway r := by
  unfold roundAway
  rcases lt_trichotomy r 0 with h | h | h
  · rw [if_neg (by linarith), if_pos h, neg_neg]
  · subst h
    norm_num
  · rw [if_pos (by linarith), if_neg (by linarith), neg_neg]

theorem roundAway_mono : Monotone roundAway := by
  have hfloor : ∀ {r s : ℚ}, r ≤ s → ⌊r + 1 / 2⌋ ≤ ⌊s + 1 / 2⌋ :=
    fun h => Int.floor_mono (by linarith)
  have hnonneg : ∀ {r : ℚ}, 0 ≤ r → 0 ≤ ⌊r + 1 / 2⌋ :=
    fun h => Int.floor_nonneg.mpr (by linarith)
  intro r s h
  unfold roundAway
  rcases lt_or_ge r 0 with hr | hr
  · rw [if_pos hr]
    have hr' := hnonneg (neg_nonneg.mpr hr.le)
    rcases lt_or_ge s 0 with hs | hs
    · rw [if_pos hs]
      exact neg_le_neg (hfloor (neg_le_neg h))
    · -- the signs differ
      rw [if_neg (not_lt.mpr hs)]
      have hs' := hnonneg hs
      omega
  · rw [if_neg (not_lt.mpr hr), if_neg (not_lt.mpr (hr.trans h))]
    exact hfloor h

theorem abs_roundAway_sub_le (r : ℚ) : |(roundAway r : ℚ) - r| ≤ 1 / 2 := by
  have hfloor : ∀ t : ℚ, |(⌊t + 1 / 2⌋ : ℚ) - t| ≤ 1 / 2 := by
    intro t
    have hle := Int.floor_le (t + 1 / 2)
    have hlt := Int.lt_floor_add_one (t + 1 / 2)
    rw [abs_le]
    constructor <;> linarith
  unfold roundAway
  split
  · have h := hfloor (-r)
    rw [← abs_neg] at h
    rw [Int.cast_neg]
    convert h using 2
    ring
  · exact hfloor r

/-- Nothing but the nearest integer is closer than a half. -/
theorem roundAway_eq_of_abs_sub_lt {r : ℚ} {n : ℤ} (h : |r - n| < 1 / 2) : roundAway r = n := by
  have hle := abs_roundAway_sub_le r
  have hdist : |((roundAway r - n : ℤ) : ℚ)| < 1 := by
    rw [Int.cast_sub]
    calc |(roundAway r : ℚ) - n| = |((roundAway r : ℚ) - r) + (r - n)| := by ring_nf
      _ ≤ |(roundAway r : ℚ) - r| + |r - n| := abs_add_le _ _
      _ < 1 := by linarith
  have hint : |roundAway r - n| < 1 := by exact_mod_cast hdist
  have hzero := Int.abs_lt_one_iff.mp hint
  omega

@[simp]
theorem roundAway_intCast (n : ℤ) : roundAway n = n :=
  roundAway_eq_of_abs_sub_lt (by rw [sub_self, abs_zero]; norm_num)

@[simp]
theorem roundAway_zero : roundAway 0 = 0 := by exact_mod_cast roundAway_intCast 0

/-- Rounding a signed ratio is rounding the ratio. -/
theorem roundAway_signed (negative : Bool) (n : Nat) {d : Nat} (hd : 0 < d) :
    roundAway (signed negative n / d) = signed negative (roundHalfUp n d) := by
  have hd' : (0 : ℚ) < d := by exact_mod_cast hd
  have hpos : roundAway ((n : ℚ) / d) = roundHalfUp n d := by
    have hfrac : (n : ℚ) / d + 1 / 2 = ((2 * n + d : Nat) : ℚ) / ((2 * d : Nat) : ℚ) := by
      push_cast
      field_simp
    unfold roundAway
    rw [if_neg (not_lt.mpr (by positivity)), hfrac, Rat.floor_natCast_div_natCast]
    rfl
  rw [signed_cast]
  unfold signed
  cases negative with
  | false => simpa using hpos
  | true =>
      simp only [if_true]
      rw [neg_div, roundAway_neg, hpos]

/-- Where a half-bit at least is cut off, the coefficient has room for the carry. -/
theorem roundHalfUp_le {m shift : Nat} (hm : m < 2 * 2 ^ f.fractionBits)
    (hshift : shift < f.places) :
    roundHalfUp (m * 2 ^ shift) f.one ≤ 2 * 2 ^ f.fractionBits := by
  obtain ⟨k, hk⟩ : ∃ k, f.places = shift + 1 + k := ⟨f.places - shift - 1, by omega⟩
  have hone : f.one = 2 * 2 ^ k * 2 ^ shift := by
    rw [Format.one_eq, hk, Nat.pow_add, Nat.pow_succ]
    ring
  have hk0 : 0 < 2 ^ k := Nat.two_pow_pos k
  have hcoefficient : m * 2 ^ shift ≤ 2 * 2 ^ f.fractionBits * 2 ^ k * 2 ^ shift := by
    refine Nat.mul_le_mul_right _ ?_
    calc m ≤ 2 * 2 ^ f.fractionBits * 1 := by omega
      _ ≤ 2 * 2 ^ f.fractionBits * 2 ^ k := Nat.mul_le_mul_left _ hk0
  have hprod : 0 < 2 ^ k * 2 ^ shift := Nat.mul_pos hk0 (Nat.two_pow_pos shift)
  unfold roundHalfUp
  rw [Nat.div_le_iff_le_mul_add_pred (Nat.mul_pos (by decide) f.one_pos), hone]
  nlinarith

/-- A whole number stays. -/
theorem roundHalfUp_mul_one (n : Nat) : roundHalfUp (n * f.one) f.one = n := by
  have hone := f.one_pos
  have hsum : 2 * (n * f.one) + f.one = f.one + 2 * f.one * n := by ring
  unfold roundHalfUp
  rw [hsum, Nat.add_mul_div_left _ _ (by omega), Nat.div_eq_of_lt (by omega), Nat.zero_add]

/-- The integer nearest to a value has a code. -/
theorem Denotes.representable_roundAway (hx : x.Denotes r) :
    f.Representable (roundAway r : ℚ) := by
  obtain ⟨a, code, rfl, hr⟩ := hx.exists_finite
  obtain ⟨shift, m, hcode, hsplit, hlt⟩ := f.exists_splits code
  have hunits : f.units code = m * 2 ^ shift := by rw [hcode, hsplit.units_eq]
  have hround : roundAway r = signed a (roundHalfUp (f.units code) f.one) := by
    rw [hr, roundAway_signed a _ f.one_pos]
  have habs : |(roundAway r : ℚ)| = roundHalfUp (f.units code) f.one := by
    rw [hround, abs_signed]
  rcases Nat.lt_or_ge shift f.places with hlow | hhigh
  · have hle := roundHalfUp_le hlt hlow
    rw [← hunits] at hle
    refine f.representable_intCast ?_
    have hnat : |roundAway r| = roundHalfUp (f.units code) f.one := by exact_mod_cast habs
    rw [Int.abs_eq_natAbs] at hnat
    have : (roundAway r).natAbs = roundHalfUp (f.units code) f.one := by exact_mod_cast hnat
    omega
  · -- a whole number already
    obtain ⟨k, hk⟩ : ∃ k, shift = k + f.places := ⟨shift - f.places, by omega⟩
    have hwhole : f.units code = m * 2 ^ k * f.one := by
      rw [hunits, hk, Nat.pow_add, Format.one_eq, Nat.mul_assoc]
    refine ⟨code, ?_⟩
    have hone := f.one_cast_pos
    unfold Format.magnitude
    rw [habs, hwhole, roundHalfUp_mul_one]
    push_cast
    field_simp

theorem Denotes.round (hx : x.Denotes r) : x.round.Rounds (roundAway r) := by
  obtain ⟨a, code, rfl, hr⟩ := hx.exists_finite
  have hone := f.one_cast_pos
  refine rounds_ofRatio a Nat.one_pos ?_
  rw [hr, roundAway_signed a _ f.one_pos]
  simp only [signed_cast]
  push_cast
  cases a <;> simp <;> field_simp

end Binary

end RoastTelemetry
