import RoastTelemetry.Binary.Rounding
import Mathlib.Order.Monotone.Basic
import Mathlib.Tactic.Ring
import Mathlib.Tactic.SplitIfs
import Mathlib.Algebra.Order.Ring.Nat

/-!
# Codes, and the code nearest to a ratio

Everything here is about natural numbers. A code splits into a shift and a coefficient below
twice the leading bit, and its magnitude is the coefficient shifted. The coefficient may reach
twice the leading bit without harm: the code is then the first one of the next binade, and its
magnitude is the same. This is why rounding may be done in one binade and carried over.

From that come the three facts that all later arguments about rounding use: magnitudes rise with
codes, the nearest code rises with the ratio, and the magnitude of a code is nearest to itself.
-/

namespace RoastTelemetry

/-! ## Rounding a quotient -/

theorem roundHalfEven_mul {k : Nat} (hk : 0 < k) (n d : Nat) :
    roundHalfEven (k * n) (k * d) = roundHalfEven n d := by
  have hlt : ∀ a b, 2 * (k * a) < k * b ↔ 2 * a < b := by
    intro a b
    rw [← Nat.mul_assoc, Nat.mul_comm 2 k, Nat.mul_assoc]
    exact Nat.mul_lt_mul_left hk
  have hgt : ∀ a b, k * b < 2 * (k * a) ↔ b < 2 * a := by
    intro a b
    rw [← Nat.mul_assoc, Nat.mul_comm 2 k, Nat.mul_assoc]
    exact Nat.mul_lt_mul_left hk
  unfold roundHalfEven
  simp only [Nat.mul_mod_mul_left, Nat.mul_div_mul_left _ _ hk, hlt, hgt]

theorem roundHalfEven_mul_self {d : Nat} (hd : 0 < d) (m : Nat) :
    roundHalfEven (m * d) d = m := by
  unfold roundHalfEven
  rw [Nat.mul_mod_left, Nat.mul_div_cancel _ hd, if_pos (by omega)]

theorem roundHalfEven_mono {n n' : Nat} (h : n ≤ n') (d : Nat) :
    roundHalfEven n d ≤ roundHalfEven n' d := by
  have hq : n / d ≤ n' / d := Nat.div_le_div_right h
  have hn := Nat.div_add_mod n d
  have hn' := Nat.div_add_mod n' d
  rcases Nat.lt_or_ge (n / d) (n' / d) with hlt | hge
  · -- different floors: one side rounds up to the next floor at most
    have hup : roundHalfEven n d ≤ n / d + 1 := by unfold roundHalfEven; split_ifs <;> omega
    have hlow : n' / d ≤ roundHalfEven n' d := by unfold roundHalfEven; split_ifs <;> omega
    omega
  · have heq : n / d = n' / d := Nat.le_antisymm hq hge
    rw [heq] at hn
    have hr : n % d ≤ n' % d := by omega
    unfold roundHalfEven
    rw [heq]
    split_ifs <;> omega

/-- The result is off by half a divisor at most. -/
theorem roundHalfEven_error (n d : Nat) (hd : 0 < d) :
    2 * n ≤ 2 * (roundHalfEven n d * d) + d ∧ 2 * (roundHalfEven n d * d) ≤ 2 * n + d := by
  have hn := Nat.div_add_mod n d
  have hr := Nat.mod_lt n hd
  have hfloor : n / d * d = d * (n / d) := Nat.mul_comm _ _
  have hceil : (n / d + 1) * d = d * (n / d) + d := by rw [Nat.add_mul, hfloor, Nat.one_mul]
  unfold roundHalfEven
  split
  · rw [hfloor]; omega
  · split
    · rw [hceil]; omega
    · rcases Nat.mod_two_eq_zero_or_one (n / d) with h | h
      · rw [h, Nat.add_zero, hfloor]; omega
      · rw [h, hceil]; omega

namespace Format

variable (f : Format)

/-! ## The definitions, in powers -/

theorem one_eq : f.one = 2 ^ f.places := rfl

theorem places_eq : f.places = 2 ^ (f.exponentBits - 1) - 2 + f.fractionBits := rfl

theorem infinityCode_eq :
    f.infinityCode = (2 ^ f.exponentBits - 1) * 2 ^ f.fractionBits := rfl

theorem units_eq_ite (code : Nat) :
    f.units code = if code < 2 ^ f.fractionBits then code
      else (2 ^ f.fractionBits + code % 2 ^ f.fractionBits) *
        2 ^ (code / 2 ^ f.fractionBits - 1) := rfl

/-! ## The magnitude of a code -/

/-- A coefficient in the binade of a shift, or below the first binade. -/
structure Splits (shift coefficient : Nat) : Prop where
  /-- It is at most twice the leading bit. -/
  le_double : coefficient ≤ 2 * 2 ^ f.fractionBits
  /-- It has the leading bit, but for the codes without exponent. -/
  leading : shift = 0 ∨ 2 ^ f.fractionBits ≤ coefficient

variable {f}

theorem Splits.units_eq {shift m : Nat} (h : f.Splits shift m) :
    f.units (shift * 2 ^ f.fractionBits + m) = m * 2 ^ shift := by
  have hF : 0 < 2 ^ f.fractionBits := Nat.two_pow_pos _
  have hle := h.le_double
  rw [units_eq_ite]
  rcases Nat.lt_or_ge m (2 ^ f.fractionBits) with hlow | hhigh
  · -- no exponent
    have hs : shift = 0 := by
      rcases h.leading with hs | hs
      · exact hs
      · omega
    subst hs
    rw [Nat.zero_mul, Nat.zero_add, if_pos hlow, Nat.pow_zero, Nat.mul_one]
  · have hnot : ¬ shift * 2 ^ f.fractionBits + m < 2 ^ f.fractionBits := by omega
    rw [if_neg hnot]
    rcases Nat.lt_or_ge m (2 * 2 ^ f.fractionBits) with hin | hout
    · have hsum : shift * 2 ^ f.fractionBits + m =
          (m - 2 ^ f.fractionBits) + 2 ^ f.fractionBits * (shift + 1) := by
        rw [Nat.mul_add, Nat.mul_one, Nat.mul_comm]; omega
      have hfrac : m - 2 ^ f.fractionBits < 2 ^ f.fractionBits := by omega
      rw [hsum, Nat.add_mul_mod_self_left, Nat.add_mul_div_left _ _ hF, Nat.mod_eq_of_lt hfrac,
        Nat.div_eq_of_lt hfrac, Nat.add_sub_cancel' hhigh, Nat.zero_add, Nat.add_sub_cancel]
    · -- the carry: the first code of the next binade
      have hm : m = 2 * 2 ^ f.fractionBits := Nat.le_antisymm hle hout
      have hsum : shift * 2 ^ f.fractionBits + m = (shift + 2) * 2 ^ f.fractionBits := by
        rw [hm, ← Nat.add_mul]
      rw [hsum, Nat.mul_mod_left, Nat.mul_div_cancel _ hF, hm, Nat.add_zero]
      have hpow : shift + 2 - 1 = shift + 1 := rfl
      rw [hpow, Nat.pow_succ]
      ring

/-- Every code splits, and then without a carry. -/
theorem exists_splits (code : Nat) :
    ∃ shift m, code = shift * 2 ^ f.fractionBits + m ∧ f.Splits shift m ∧
      m < 2 * 2 ^ f.fractionBits := by
  have hF : 0 < 2 ^ f.fractionBits := Nat.two_pow_pos _
  have hdiv := Nat.div_add_mod code (2 ^ f.fractionBits)
  have hmod := Nat.mod_lt code hF
  rcases Nat.eq_zero_or_pos (code / 2 ^ f.fractionBits) with h0 | hpos
  · rw [h0, Nat.mul_zero, Nat.zero_add] at hdiv
    exact ⟨0, code, by omega, ⟨by omega, Or.inl rfl⟩, by omega⟩
  · obtain ⟨shift, hshift⟩ : ∃ shift, code / 2 ^ f.fractionBits = shift + 1 :=
      ⟨code / 2 ^ f.fractionBits - 1, by omega⟩
    rw [hshift, Nat.mul_add, Nat.mul_one, Nat.mul_comm] at hdiv
    refine ⟨shift, 2 ^ f.fractionBits + code % 2 ^ f.fractionBits, by omega, ⟨by omega, ?_⟩,
      by omega⟩
    exact Or.inr (Nat.le_add_right _ _)

theorem units_strictMono : StrictMono f.units := by
  apply strictMono_nat_of_lt_succ
  intro code
  obtain ⟨shift, m, hcode, hsplit, hlt⟩ := f.exists_splits code
  have hnext : f.Splits shift (m + 1) :=
    ⟨by omega, hsplit.leading.imp id (fun h => Nat.le_succ_of_le h)⟩
  rw [hcode, Nat.add_assoc, hsplit.units_eq, hnext.units_eq]
  exact Nat.mul_lt_mul_of_pos_right (Nat.lt_succ_self m) (Nat.two_pow_pos _)

theorem units_zero : f.units 0 = 0 := by
  rw [units_eq_ite, if_pos (Nat.two_pow_pos _)]

/-! ## The nearest code -/

variable (f)

/-- How far the codes around `n / d` units are apart, as a power of two. -/
def shiftOf (n d : Nat) : Nat := (n / d).log2 - f.fractionBits

/-- The coefficient nearest to `n / d` units in its binade. -/
def coefficientOf (n d : Nat) : Nat := roundHalfEven n (d * 2 ^ f.shiftOf n d)

variable {f}

theorem nearestCode_eq (n d : Nat) :
    f.nearestCode n d = f.shiftOf n d * 2 ^ f.fractionBits + f.coefficientOf n d := rfl

theorem lt_of_shiftOf {n d : Nat} (hd : 0 < d) :
    n < 2 * 2 ^ f.fractionBits * (d * 2 ^ f.shiftOf n d) := by
  have hlog : n / d < 2 ^ ((n / d).log2 + 1) := Nat.lt_log2_self
  have hexp : (n / d).log2 + 1 ≤ 1 + f.fractionBits + f.shiftOf n d := by unfold shiftOf; omega
  have hpow := Nat.pow_le_pow_right (Nat.zero_lt_two) hexp
  have hn := (Nat.div_lt_iff_lt_mul hd).mp (Nat.lt_of_lt_of_le hlog hpow)
  calc n < 2 ^ (1 + f.fractionBits + f.shiftOf n d) * d := hn
    _ = 2 * 2 ^ f.fractionBits * (d * 2 ^ f.shiftOf n d) := by rw [Nat.pow_add, Nat.pow_add]; ring

theorem le_of_shiftOf {n d : Nat} (hd : 0 < d) (h : f.shiftOf n d ≠ 0) :
    2 ^ f.fractionBits * (d * 2 ^ f.shiftOf n d) ≤ n := by
  have hexp : f.fractionBits + f.shiftOf n d = (n / d).log2 := by unfold shiftOf at h ⊢; omega
  have hne : n / d ≠ 0 := by
    intro h0
    rw [h0, Nat.log2_zero] at hexp
    omega
  have hlog := Nat.log2_self_le hne
  rw [← hexp] at hlog
  calc 2 ^ f.fractionBits * (d * 2 ^ f.shiftOf n d)
      = 2 ^ (f.fractionBits + f.shiftOf n d) * d := by rw [Nat.pow_add]; ring
    _ ≤ n := (Nat.le_div_iff_mul_le hd).mp hlog

theorem splits_coefficientOf {n d : Nat} (hd : 0 < d) :
    f.Splits (f.shiftOf n d) (f.coefficientOf n d) where
  le_double := by
    have hpos : 0 < d * 2 ^ f.shiftOf n d := Nat.mul_pos hd (Nat.two_pow_pos _)
    have h := roundHalfEven_mono (Nat.le_of_lt (f.lt_of_shiftOf (n := n) hd))
      (d * 2 ^ f.shiftOf n d)
    rwa [roundHalfEven_mul_self hpos] at h
  leading := by
    by_cases h0 : f.shiftOf n d = 0
    · exact Or.inl h0
    · have hpos : 0 < d * 2 ^ f.shiftOf n d := Nat.mul_pos hd (Nat.two_pow_pos _)
      have h := roundHalfEven_mono (f.le_of_shiftOf hd h0) (d * 2 ^ f.shiftOf n d)
      rw [roundHalfEven_mul_self hpos] at h
      exact Or.inr h

theorem units_nearestCode {n d : Nat} (hd : 0 < d) :
    f.units (f.nearestCode n d) = f.coefficientOf n d * 2 ^ f.shiftOf n d := by
  rw [nearestCode_eq]
  exact (f.splits_coefficientOf hd).units_eq

/-- Only the ratio counts. -/
theorem nearestCode_mul {k : Nat} (hk : 0 < k) (n d : Nat) :
    f.nearestCode (k * n) (k * d) = f.nearestCode n d := by
  have hshift : f.shiftOf (k * n) (k * d) = f.shiftOf n d := by
    unfold shiftOf
    rw [Nat.mul_div_mul_left _ _ hk]
  rw [nearestCode_eq, nearestCode_eq, coefficientOf, coefficientOf, hshift, Nat.mul_assoc,
    roundHalfEven_mul hk]

theorem nearestCode_mono_left {n n' d : Nat} (hd : 0 < d) (h : n ≤ n') :
    f.nearestCode n d ≤ f.nearestCode n' d := by
  have hq : n / d ≤ n' / d := Nat.div_le_div_right h
  have hshift : f.shiftOf n d ≤ f.shiftOf n' d := by
    have hlog : (n / d).log2 ≤ (n' / d).log2 := by
      rcases Nat.eq_zero_or_pos (n / d) with h0 | hpos
      · rw [h0, Nat.log2_zero]
        exact Nat.zero_le _
      · exact (Nat.le_log2 (by omega)).mpr (Nat.le_trans (Nat.log2_self_le (by omega)) hq)
    unfold shiftOf
    omega
  rw [nearestCode_eq, nearestCode_eq]
  rcases Nat.eq_or_lt_of_le hshift with heq | hlt
  · have hround := roundHalfEven_mono h (d * 2 ^ f.shiftOf n d)
    unfold coefficientOf
    rw [← heq]
    omega
  · -- the lower one ends at the carry, where the higher binade begins
    have hlow := (f.splits_coefficientOf (n := n) hd).le_double
    have hhigh := (f.splits_coefficientOf (n := n') hd).leading
    have hstep : (f.shiftOf n d + 1) * 2 ^ f.fractionBits ≤
        f.shiftOf n' d * 2 ^ f.fractionBits := Nat.mul_le_mul_right _ hlt
    rw [Nat.add_mul, Nat.one_mul] at hstep
    rcases hhigh with h0 | h1
    · omega
    · omega

theorem nearestCode_mono {n d n' d' : Nat} (hd : 0 < d) (hd' : 0 < d') (h : n * d' ≤ n' * d) :
    f.nearestCode n d ≤ f.nearestCode n' d' := by
  rw [← nearestCode_mul hd' n d, ← nearestCode_mul hd n' d', Nat.mul_comm d' d]
  refine nearestCode_mono_left (Nat.mul_pos hd hd') ?_
  rwa [Nat.mul_comm d' n, Nat.mul_comm d n']

/-- The code nearest to the magnitude of a code is that code. -/
theorem nearestCode_units {d : Nat} (hd : 0 < d) (code : Nat) :
    f.nearestCode (f.units code * d) d = code := by
  obtain ⟨shift, m, hcode, hsplit, hlt⟩ := f.exists_splits code
  have hunits : f.units code = m * 2 ^ shift := by rw [hcode, hsplit.units_eq]
  have hshift : f.shiftOf (f.units code * d) d = shift := by
    unfold shiftOf
    rw [Nat.mul_div_cancel _ hd, hunits]
    rcases Nat.eq_zero_or_pos m with hm | hm
    · have hs : shift = 0 := by
        have hF : 0 < 2 ^ f.fractionBits := Nat.two_pow_pos _
        rcases hsplit.leading with hs | hs
        · exact hs
        · omega
      rw [hm, Nat.zero_mul, Nat.log2_zero, hs, Nat.zero_sub]
    · have hne : m * 2 ^ shift ≠ 0 := Nat.mul_ne_zero (by omega) (Nat.two_pow_pos _).ne'
      have hupper : (m * 2 ^ shift).log2 < 1 + f.fractionBits + shift := by
        rw [Nat.log2_lt hne, Nat.pow_add, Nat.pow_add]
        exact Nat.mul_lt_mul_of_pos_right hlt (Nat.two_pow_pos _)
      rcases hsplit.leading with hs | hs
      · omega
      · have hlower : f.fractionBits + shift ≤ (m * 2 ^ shift).log2 := by
          rw [Nat.le_log2 hne, Nat.pow_add]
          exact Nat.mul_le_mul_right _ hs
        omega
  have hexact : f.units code * d = m * (d * 2 ^ shift) := by rw [hunits]; ring
  have hpos : 0 < d * 2 ^ shift := Nat.mul_pos hd (Nat.two_pow_pos _)
  rw [nearestCode_eq, coefficientOf, hshift, hexact, roundHalfEven_mul_self hpos, ← hcode]

end Format

end RoastTelemetry
