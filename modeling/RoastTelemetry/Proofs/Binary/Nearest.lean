import RoastTelemetry.Proofs.Binary.Codes
import Mathlib.Algebra.Order.Field.Rat
import Mathlib.Data.Rat.Lemmas
import Mathlib.Tactic.FieldSimp
import Mathlib.Tactic.Linarith
import Mathlib.Tactic.Positivity
import Mathlib.Tactic.NormNum

/-!
# Rounding as a function on the rationals

`Format.nearest` takes a rational number to the magnitude of its nearest code, with its sign. It
knows no infinity: beyond the largest finite value it goes on with the codes from `infinityCode`
up, so that it is monotone and its error bounds hold without exception. Whether a result fits is
a separate question, answered by comparing it with `Format.limit`.

Arithmetic on values is, up to the sign of a zero, exact arithmetic followed by this function. All
that is needed about it is here: it is odd and monotone, it leaves representable numbers alone,
and its error is at most half the distance of the codes around.
-/

namespace RoastTelemetry.Format

variable (f : Format)

/-- The code nearest to the magnitude of a rational number. -/
def codeOf (r : ℚ) : Nat := f.nearestCode (r.num.natAbs * f.one) r.den

/-- The magnitude of a code. -/
def magnitude (code : Nat) : ℚ := f.units code / f.one

/-- The representable number nearest to a rational number, ties to the even code. -/
def nearest (r : ℚ) : ℚ := if r < 0 then -f.magnitude (f.codeOf r) else f.magnitude (f.codeOf r)

/-- The number that would follow the largest finite value. -/
def limit : ℚ := f.magnitude f.infinityCode

/-- Numbers that have a code, infinity's and those beyond included. -/
def Representable (r : ℚ) : Prop := ∃ code, |r| = f.magnitude code

variable {f}

theorem one_cast_pos : (0 : ℚ) < f.one := by exact_mod_cast f.one_pos

theorem one_cast : (f.one : ℚ) = 2 ^ f.places := by rw [one_eq, Nat.cast_pow, Nat.cast_ofNat]

/-! ## Magnitudes -/

theorem magnitude_nonneg (code : Nat) : 0 ≤ f.magnitude code := by
  unfold magnitude
  positivity

theorem magnitude_strictMono : StrictMono f.magnitude := by
  intro a b h
  have hu : (f.units a : ℚ) < f.units b := by exact_mod_cast f.units_strictMono h
  exact div_lt_div_of_pos_right hu one_cast_pos

@[simp]
theorem magnitude_zero : f.magnitude 0 = 0 := by
  unfold magnitude
  rw [units_zero, Nat.cast_zero, zero_div]

/-- The magnitude of a rational number as the ratio that is rounded. -/
theorem abs_eq_ratio (r : ℚ) : |r| = (r.num.natAbs * f.one : Nat) / (r.den * f.one) := by
  have hone := f.one_cast_pos
  have hden : (0 : ℚ) < r.den := by exact_mod_cast r.den_pos
  rw [Nat.cast_mul, Nat.cast_natAbs, Int.cast_abs]
  nth_rewrite 1 [← Rat.num_div_den r]
  rw [abs_div, Nat.abs_cast]
  field_simp

/-- The code of a ratio of natural numbers, whether or not in lowest terms. -/
theorem codeOf_eq {r : ℚ} {n d : Nat} (hd : 0 < d) (h : |r| = n / (d * f.one)) :
    f.codeOf r = f.nearestCode n d := by
  have hden : (0 : ℚ) < r.den := by exact_mod_cast r.den_pos
  have hd' : (0 : ℚ) < d := by exact_mod_cast hd
  have hone := f.one_cast_pos
  rw [f.abs_eq_ratio r, div_eq_div_iff (by positivity) (by positivity), ← mul_assoc,
    ← mul_assoc] at h
  have hcross := mul_right_cancel₀ hone.ne' h
  have hnat : r.num.natAbs * f.one * d = n * r.den := by exact_mod_cast hcross
  exact Nat.le_antisymm (nearestCode_mono r.den_pos hd (Nat.le_of_eq hnat))
    (nearestCode_mono hd r.den_pos (Nat.le_of_eq hnat.symm))

theorem codeOf_mono {r s : ℚ} (h : |r| ≤ |s|) : f.codeOf r ≤ f.codeOf s := by
  have hr : (0 : ℚ) < r.den := by exact_mod_cast r.den_pos
  have hs : (0 : ℚ) < s.den := by exact_mod_cast s.den_pos
  have hone := f.one_cast_pos
  rw [f.abs_eq_ratio r, f.abs_eq_ratio s, div_le_div_iff₀ (by positivity) (by positivity),
    ← mul_assoc, ← mul_assoc] at h
  have hcross := le_of_mul_le_mul_right h hone
  exact nearestCode_mono r.den_pos s.den_pos (by exact_mod_cast hcross)

@[simp]
theorem codeOf_neg (r : ℚ) : f.codeOf (-r) = f.codeOf r :=
  Nat.le_antisymm (codeOf_mono (by rw [abs_neg])) (codeOf_mono (by rw [abs_neg]))

@[simp]
theorem codeOf_zero : f.codeOf 0 = 0 := by
  have h := f.nearestCode_units Nat.one_pos 0
  rw [units_zero] at h
  rw [codeOf_eq Nat.one_pos (n := 0) (by simp)]
  simpa using h

theorem codeOf_of_abs_eq {r : ℚ} {code : Nat} (h : |r| = f.magnitude code) :
    f.codeOf r = code := by
  have hr : |r| = (f.units code : Nat) / ((1 : Nat) * f.one) := by
    rw [h, Nat.cast_one, one_mul]
    rfl
  rw [codeOf_eq Nat.one_pos hr]
  have hcode := f.nearestCode_units Nat.one_pos code
  rwa [Nat.mul_one] at hcode

/-! ## Odd, monotone, and the identity on what has a code -/

theorem nearest_of_nonneg {r : ℚ} (h : 0 ≤ r) : f.nearest r = f.magnitude (f.codeOf r) :=
  if_neg (not_lt.mpr h)

@[simp]
theorem nearest_zero : f.nearest 0 = 0 := by rw [nearest_of_nonneg le_rfl, codeOf_zero,
  magnitude_zero]

@[simp]
theorem nearest_neg (r : ℚ) : f.nearest (-r) = -f.nearest r := by
  unfold nearest
  rw [codeOf_neg]
  rcases lt_trichotomy r 0 with h | h | h
  · rw [if_neg (by linarith), if_pos h, neg_neg]
  · rw [h, neg_zero, if_neg (lt_irrefl _), codeOf_zero, magnitude_zero, neg_zero]
  · rw [if_pos (by linarith), if_neg (by linarith)]

theorem abs_nearest (r : ℚ) : |f.nearest r| = f.magnitude (f.codeOf r) := by
  unfold nearest
  split
  · rw [abs_neg, abs_of_nonneg (f.magnitude_nonneg _)]
  · exact abs_of_nonneg (f.magnitude_nonneg _)

theorem nearest_nonneg {r : ℚ} (h : 0 ≤ r) : 0 ≤ f.nearest r := by
  rw [nearest_of_nonneg h]
  exact f.magnitude_nonneg _

theorem nearest_mono : Monotone f.nearest := by
  have hpos : ∀ r s : ℚ, 0 ≤ r → r ≤ s → f.nearest r ≤ f.nearest s := by
    intro r s hr hrs
    rw [nearest_of_nonneg hr, nearest_of_nonneg (hr.trans hrs)]
    refine f.magnitude_strictMono.monotone (codeOf_mono ?_)
    rwa [abs_of_nonneg hr, abs_of_nonneg (hr.trans hrs)]
  intro r s hrs
  rcases le_or_gt 0 r with hr | hr
  · exact hpos r s hr hrs
  · rcases le_or_gt 0 s with hs | hs
    · -- the signs differ
      have hr' := nearest_nonneg (f := f) (neg_nonneg.mpr hr.le)
      have hs' := nearest_nonneg (f := f) hs
      rw [nearest_neg] at hr'
      linarith
    · have h := hpos (-s) (-r) (by linarith) (by linarith)
      rw [nearest_neg, nearest_neg] at h
      linarith

theorem nearest_of_representable {r : ℚ} (h : f.Representable r) : f.nearest r = r := by
  obtain ⟨code, hcode⟩ := h
  unfold nearest
  rw [codeOf_of_abs_eq hcode, ← hcode]
  split
  · rename_i hr
    rw [abs_of_neg hr, neg_neg]
  · rename_i hr
    rw [abs_of_nonneg (not_lt.mp hr)]

theorem abs_nearest_le_nearest {r b : ℚ} (h : |r| ≤ b) : |f.nearest r| ≤ f.nearest b := by
  have hlow := f.nearest_mono (neg_le_of_abs_le h)
  have hhigh := f.nearest_mono (le_of_abs_le h)
  rw [nearest_neg] at hlow
  exact abs_le.mpr ⟨hlow, hhigh⟩

/-- A bound that has a code holds of the rounded number too. -/
theorem abs_nearest_le {r b : ℚ} (hb : f.Representable b) (h : |r| ≤ b) : |f.nearest r| ≤ b := by
  have hnear := f.abs_nearest_le_nearest h
  rwa [nearest_of_representable hb] at hnear

/-! ## Which numbers have a code -/

theorem exists_units_eq (shift : Nat) :
    ∀ m, m ≤ 2 * 2 ^ f.fractionBits → ∃ code, f.units code = m * 2 ^ shift := by
  induction shift with
  | zero =>
      intro m hm
      have hsplit : f.Splits 0 m := ⟨hm, Or.inl rfl⟩
      exact ⟨_, hsplit.units_eq⟩
  | succ shift ih =>
      intro m hm
      rcases Nat.lt_or_ge m (2 ^ f.fractionBits) with hlow | hhigh
      · -- the leading bit is missing: move the coefficient up
        obtain ⟨code, hcode⟩ := ih (2 * m) (by omega)
        exact ⟨code, by rw [hcode]; ring⟩
      · have hsplit : f.Splits (shift + 1) m := ⟨hm, Or.inr hhigh⟩
        exact ⟨_, hsplit.units_eq⟩

/-- Whole numbers have codes as far as the coefficient reaches, and their doubles after that. -/
theorem representable_intCast_mul {i : ℤ} (h : i.natAbs ≤ 2 * 2 ^ f.fractionBits) (shift : Nat) :
    f.Representable (i * 2 ^ shift) := by
  obtain ⟨code, hcode⟩ := f.exists_units_eq (shift + f.places) i.natAbs h
  refine ⟨code, ?_⟩
  have hpos : (0 : ℚ) < 2 ^ f.places := by positivity
  unfold magnitude
  rw [hcode, f.one_cast, Nat.cast_mul, Nat.cast_pow, Nat.cast_natAbs, Int.cast_abs, Nat.cast_ofNat,
    pow_add, abs_mul, abs_of_nonneg (by positivity : (0 : ℚ) ≤ 2 ^ shift)]
  field_simp

theorem representable_intCast {i : ℤ} (h : i.natAbs ≤ 2 * 2 ^ f.fractionBits) :
    f.Representable i := by
  have hr := f.representable_intCast_mul h 0
  rwa [pow_zero, mul_one] at hr

theorem representable_two_pow (k : Nat) : f.Representable (2 ^ k) := by
  have hF : 0 < 2 ^ f.fractionBits := Nat.two_pow_pos _
  have hr := f.representable_intCast_mul (i := 1) (by simp only [Int.natAbs_one]; omega) k
  rwa [Int.cast_one, one_mul] at hr

/-- Doubling keeps the coefficient. -/
theorem Representable.mul_two_pow {r : ℚ} (h : f.Representable r) (k : Nat) :
    f.Representable (r * 2 ^ k) := by
  obtain ⟨code, hcode⟩ := h
  obtain ⟨shift, m, hsplit, hs, hlt⟩ := f.exists_splits code
  obtain ⟨code', hcode'⟩ := f.exists_units_eq (shift + k) m hs.le_double
  refine ⟨code', ?_⟩
  rw [abs_mul, hcode, abs_of_pos (by positivity : (0 : ℚ) < 2 ^ k)]
  unfold magnitude
  rw [hsplit, hs.units_eq, hcode', Nat.pow_add]
  push_cast
  ring

/-- Fractions with a power of two below have codes down to the least unit. -/
theorem representable_intCast_div {i : ℤ} (h : i.natAbs ≤ 2 * 2 ^ f.fractionBits) {k : Nat}
    (hk : k ≤ f.places) : f.Representable (i / 2 ^ k) := by
  obtain ⟨code, hcode⟩ := f.exists_units_eq (f.places - k) i.natAbs h
  refine ⟨code, ?_⟩
  have hone : (f.one : ℚ) = 2 ^ k * 2 ^ (f.places - k) := by
    rw [← pow_add, Nat.add_sub_cancel' hk, f.one_cast]
  unfold magnitude
  rw [hcode, hone, Nat.cast_mul, Nat.cast_pow, Nat.cast_natAbs, Int.cast_abs, Nat.cast_ofNat,
    abs_div, abs_of_pos (by positivity : (0 : ℚ) < 2 ^ k)]
  field_simp

/-! ## The error -/

/-- How far the codes around a rational number are apart, as a power of two. -/
def spacing (f : Format) (r : ℚ) : Nat := f.shiftOf (r.num.natAbs * f.one) r.den

/-- The magnitude of the code is off by half the distance of the codes around. -/
theorem abs_magnitude_codeOf_sub_le (r : ℚ) :
    abs (f.magnitude (f.codeOf r) - |r|) ≤ 2 ^ f.spacing r / (2 * f.one) := by
  have hone := f.one_cast_pos
  have hden : (0 : ℚ) < r.den := by exact_mod_cast r.den_pos
  have hpos : 0 < r.den * 2 ^ f.spacing r := Nat.mul_pos r.den_pos (Nat.two_pow_pos _)
  obtain ⟨hlow, hhigh⟩ := roundHalfEven_error (r.num.natAbs * f.one) _ hpos
  have hunits : f.units (f.codeOf r) =
      roundHalfEven (r.num.natAbs * f.one) (r.den * 2 ^ f.spacing r) * 2 ^ f.spacing r :=
    units_nearestCode r.den_pos
  unfold magnitude
  rw [f.abs_eq_ratio r, hunits]
  generalize roundHalfEven (r.num.natAbs * f.one) (r.den * 2 ^ f.spacing r) = m at *
  have hlow' : (2 * (r.num.natAbs * f.one : Nat) : ℚ) ≤
      2 * (m * (r.den * 2 ^ f.spacing r)) + r.den * 2 ^ f.spacing r := by exact_mod_cast hlow
  have hhigh' : (2 * (m * (r.den * 2 ^ f.spacing r)) : ℚ) ≤
      2 * (r.num.natAbs * f.one : Nat) + r.den * 2 ^ f.spacing r := by exact_mod_cast hhigh
  rw [Nat.cast_mul m, Nat.cast_pow, Nat.cast_ofNat, abs_le]
  -- both bounds are the integer ones, after cross multiplication
  constructor
  · rw [neg_le_sub_iff_le_add, div_add_div _ _ (by positivity) (by positivity),
      div_le_div_iff₀ (by positivity) (by positivity)]
    nlinarith [mul_le_mul_of_nonneg_right hlow' (by positivity : (0 : ℚ) ≤ f.one * f.one)]
  · rw [sub_le_iff_le_add, div_add_div _ _ (by positivity) (by positivity),
      div_le_div_iff₀ (by positivity) (by positivity)]
    nlinarith [mul_le_mul_of_nonneg_right hhigh' (by positivity : (0 : ℚ) ≤ f.one * f.one)]

/-- The error is half the distance of the codes around. -/
theorem nearest_error (r : ℚ) : |f.nearest r - r| ≤ 2 ^ f.spacing r / (2 * f.one) := by
  have hmag := f.abs_magnitude_codeOf_sub_le r
  unfold nearest
  split
  · rename_i hr
    rw [abs_of_neg hr] at hmag
    rwa [← abs_neg, neg_sub, sub_neg_eq_add, add_comm, ← sub_neg_eq_add]
  · rename_i hr
    rwa [abs_of_nonneg (not_lt.mp hr)] at hmag

/-- The codes around a number are no further apart than the number allows. -/
theorem two_pow_spacing_le {r : ℚ} (h : f.spacing r ≠ 0) :
    2 ^ f.fractionBits * 2 ^ f.spacing r ≤ |r| * f.one := by
  have hone := f.one_cast_pos
  have hden : (0 : ℚ) < r.den := by exact_mod_cast r.den_pos
  have hle : 2 ^ f.fractionBits * (r.den * 2 ^ f.spacing r) ≤ r.num.natAbs * f.one :=
    le_of_shiftOf r.den_pos h
  have hle' : (2 ^ f.fractionBits * (r.den * 2 ^ f.spacing r) : ℚ) ≤
      (r.num.natAbs * f.one : Nat) := by exact_mod_cast hle
  have hscale : |r| * f.one = (r.num.natAbs * f.one : Nat) / r.den := by
    rw [f.abs_eq_ratio r]
    field_simp
  rw [hscale, le_div_iff₀ hden]
  linarith

/-- The error relative to the number, from the first binade on. -/
theorem nearest_error_le_mul {r : ℚ} (h : 2 ^ f.fractionBits ≤ |r| * f.one) :
    |f.nearest r - r| ≤ |r| / (2 * 2 ^ f.fractionBits) := by
  have hone := f.one_cast_pos
  refine (f.nearest_error r).trans ?_
  rw [div_le_div_iff₀ (by positivity) (by positivity)]
  by_cases h0 : f.spacing r = 0
  · -- in the first binade the spacing is one unit
    rw [h0, pow_zero]
    linarith
  · have hle := two_pow_spacing_le h0
    linarith

/-- The same for a number that is not too small, said without units. -/
theorem nearest_error_of_le {r : ℚ} {k : Nat} (hk : k + f.fractionBits ≤ f.places)
    (h : 1 / 2 ^ k ≤ |r|) : |f.nearest r - r| ≤ |r| / 2 ^ (f.fractionBits + 1) := by
  have hnormal : (2 : ℚ) ^ f.fractionBits ≤ |r| * f.one := by
    have hpow : (2 : ℚ) ^ k * 2 ^ f.fractionBits ≤ f.one := by
      rw [f.one_cast, ← pow_add]
      exact pow_le_pow_right₀ (by norm_num) hk
    rw [div_le_iff₀ (by positivity)] at h
    calc (2 : ℚ) ^ f.fractionBits = 1 * 2 ^ f.fractionBits := (one_mul _).symm
      _ ≤ |r| * 2 ^ k * 2 ^ f.fractionBits := mul_le_mul_of_nonneg_right h (by positivity)
      _ = |r| * (2 ^ k * 2 ^ f.fractionBits) := mul_assoc _ _ _
      _ ≤ |r| * f.one := mul_le_mul_of_nonneg_left hpow (abs_nonneg r)
  have herr := nearest_error_le_mul hnormal
  rwa [← pow_succ'] at herr

/-- The error below a power of two, which is half the distance of the codes below it. -/
theorem nearest_error_le_pow {r : ℚ} {k : Nat}
    (h : |r| * f.one ≤ 2 * 2 ^ f.fractionBits * 2 ^ k) :
    |f.nearest r - r| ≤ 2 ^ k / (2 * f.one) := by
  have hone := f.one_cast_pos
  rcases eq_or_lt_of_le h with heq | hlt
  · -- the power of two itself
    have hrep : f.Representable r := by
      obtain ⟨code, hcode⟩ := f.exists_units_eq k (2 * 2 ^ f.fractionBits) le_rfl
      refine ⟨code, ?_⟩
      unfold magnitude
      rw [eq_div_iff hone.ne', heq, hcode]
      push_cast
      ring
    rw [nearest_of_representable hrep, sub_self, abs_zero]
    positivity
  · refine (f.nearest_error r).trans ?_
    have hexp : f.spacing r ≤ k := by
      by_cases h0 : f.spacing r = 0
      · omega
      · have hle := two_pow_spacing_le h0
        have hpow : (2 : ℚ) ^ f.spacing r < 2 ^ (k + 1) := by
          have hF : (0 : ℚ) < 2 ^ f.fractionBits := by positivity
          rw [pow_succ]
          nlinarith
        have := (pow_lt_pow_iff_right₀ (by norm_num : (1 : ℚ) < 2)).mp hpow
        omega
    exact div_le_div_of_nonneg_right (pow_le_pow_right₀ (by norm_num) hexp) (by positivity)

/-- The same said without units, from the first binade above one on. -/
theorem nearest_error_le_two_pow (hplaces : f.fractionBits < f.places) {r : ℚ} {k : Nat}
    (h : |r| ≤ 2 ^ k) : |f.nearest r - r| ≤ 2 ^ k / 2 ^ (f.fractionBits + 2) := by
  obtain ⟨j, hj⟩ : ∃ j, k + f.places = f.fractionBits + 1 + j :=
    ⟨k + f.places - (f.fractionBits + 1), by omega⟩
  have hpow : (2 : ℚ) ^ k * f.one = 2 * 2 ^ f.fractionBits * 2 ^ j := by
    rw [f.one_cast, ← pow_add, hj, pow_add, pow_succ']
  have hone := f.one_cast_pos
  have hscaled : |r| * f.one ≤ 2 * 2 ^ f.fractionBits * 2 ^ j := by
    rw [← hpow]
    exact mul_le_mul_of_nonneg_right h hone.le
  refine (nearest_error_le_pow hscaled).trans (le_of_eq ?_)
  rw [div_eq_div_iff (by positivity) (by positivity)]
  calc (2 : ℚ) ^ j * 2 ^ (f.fractionBits + 2) = 2 * (2 * 2 ^ f.fractionBits * 2 ^ j) := by ring
    _ = 2 ^ k * (2 * f.one) := by rw [← hpow]; ring

/-! ## The limit -/

/-- The limit is the power of two that the exponent field cannot express. -/
theorem limit_eq (f : Format) : f.limit = 2 ^ 2 ^ (f.exponentBits - 1) := by
  have hF : 0 < 2 ^ f.fractionBits := Nat.two_pow_pos _
  have hexp := f.one_lt_exponentBits
  have htwo : 2 ≤ 2 ^ (f.exponentBits - 1) := by
    calc 2 = 2 ^ 1 := rfl
      _ ≤ 2 ^ (f.exponentBits - 1) := Nat.pow_le_pow_right (by decide) (by omega)
  have hdouble : 2 ^ f.exponentBits = 2 * 2 ^ (f.exponentBits - 1) := by
    rw [← Nat.pow_succ']
    congr 1
    omega
  -- it is the carry out of the last binade
  have hsplit : f.Splits (2 ^ f.exponentBits - 2) (2 ^ f.fractionBits) := ⟨by omega, Or.inr le_rfl⟩
  have hcode : f.infinityCode =
      (2 ^ f.exponentBits - 2) * 2 ^ f.fractionBits + 2 ^ f.fractionBits := by
    rw [infinityCode_eq, ← Nat.succ_mul]
    congr 1
    omega
  have hsum : f.fractionBits + (2 ^ f.exponentBits - 2) =
      2 ^ (f.exponentBits - 1) + f.places := by
    rw [places_eq]
    omega
  have hpos : (0 : ℚ) < 2 ^ f.places := by positivity
  unfold limit magnitude
  rw [hcode, hsplit.units_eq, ← Nat.pow_add, hsum, one_eq, Nat.pow_add]
  push_cast
  field_simp

theorem limit_pos (f : Format) : 0 < f.limit := by
  rw [limit_eq]
  positivity

theorem limit_single : single.limit = 2 ^ 128 := by
  rw [limit_eq]
  norm_num [single]

theorem limit_double : double.limit = 2 ^ 1024 := by
  rw [limit_eq]
  norm_num [double]

theorem two_pow_lt_limit_single {k : Nat} (h : k < 128) : (2 : ℚ) ^ k < single.limit := by
  rw [limit_single]
  exact pow_lt_pow_right₀ (by norm_num) h

theorem two_pow_lt_limit_double {k : Nat} (h : k < 1024) : (2 : ℚ) ^ k < double.limit := by
  rw [limit_double]
  exact pow_lt_pow_right₀ (by norm_num) h

/-- A result fits exactly when it stays below the limit. -/
theorem codeOf_lt_infinityCode_iff (r : ℚ) :
    f.codeOf r < f.infinityCode ↔ |f.nearest r| < f.limit := by
  rw [abs_nearest]
  exact f.magnitude_strictMono.lt_iff_lt.symm

end RoastTelemetry.Format
