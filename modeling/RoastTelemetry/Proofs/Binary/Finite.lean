import RoastTelemetry.Proofs.Binary.Value

/-!
# What is finite, and what stays so

Infinities and NaN do not go away in sums, differences and products, nor as dividends. So a finite
result speaks for its operands, and one check at the end of a computation is as good as a check of
every step.

In the other direction the largest value is special. Its coefficient is all ones, so its product
with another value falls short of a round one by that value's last place, and is never rounded up.
This leaves just enough room for a weighted mean of two values, whose weights need not come to one
exactly.
-/

namespace RoastTelemetry

namespace Binary

variable {f : Format} {x y : Binary f}

/-! ## Finite results of finite operands only -/

theorem isFinite_of_neg (h : (-x).isFinite = true) : x.isFinite = true := by
  cases x with
  | nan => exact h
  | infinity negative => exact h
  | finite negative code => rfl

theorem isFinite_of_add (h : (x + y).isFinite = true) :
    x.isFinite = true ∧ y.isFinite = true := by
  cases x with
  | nan => cases h
  | infinity a =>
      cases y with
      | nan => cases h
      | infinity b =>
          have hsum : (infinity a : Binary f) + infinity b =
              if a = b then infinity a else nan := rfl
          rw [hsum] at h
          split at h <;> cases h
      | finite b cy => cases h
  | finite a cx =>
      cases y with
      | nan => cases h
      | infinity b => cases h
      | finite b cy => exact ⟨rfl, rfl⟩

theorem isFinite_of_sub (h : (x - y).isFinite = true) :
    x.isFinite = true ∧ y.isFinite = true := by
  have hadd : (x + -y).isFinite = true := h
  exact ⟨(isFinite_of_add hadd).1, isFinite_of_neg (isFinite_of_add hadd).2⟩

theorem isFinite_of_mul (h : (x * y).isFinite = true) :
    x.isFinite = true ∧ y.isFinite = true := by
  cases x with
  | nan => cases h
  | infinity a =>
      cases y with
      | nan => cases h
      | infinity b => cases h
      | finite b cy =>
          have hproduct : (infinity a : Binary f) * finite b cy =
              if cy.val = 0 then nan else infinity (a ^^ b) := rfl
          rw [hproduct] at h
          split at h <;> cases h
  | finite a cx =>
      cases y with
      | nan => cases h
      | infinity b =>
          have hproduct : (finite a cx : Binary f) * infinity b =
              if cx.val = 0 then nan else infinity (a ^^ b) := rfl
          rw [hproduct] at h
          split at h <;> cases h
      | finite b cy => exact ⟨rfl, rfl⟩

/-- A divisor may be infinite, a dividend may not. -/
theorem isFinite_of_div (h : (x / y).isFinite = true) : x.isFinite = true := by
  cases x with
  | nan => cases h
  | infinity a =>
      cases y with
      | nan => cases h
      | infinity b => cases h
      | finite b cy => cases h
  | finite a cx => rfl

theorem div_infinity (h : x.isFinite = true) (negative : Bool) :
    (x / infinity negative).Denotes 0 := by
  obtain ⟨a, cx, rfl, -⟩ := (denotes_value h).exists_finite
  have hquotient : (finite a cx : Binary f) / infinity negative = ofRatio (a ^^ negative) 0 1 := rfl
  rw [hquotient, ofRatio_zero _ Nat.one_pos]
  exact finite_denotes_zero_iff.mpr rfl

/-- A finite quotient has a divisor other than zero, or an infinite one and is a zero. -/
theorem divisor_of_isFinite (h : (x / y).isFinite = true) :
    (∃ s, y.Denotes s ∧ s ≠ 0) ∨ (x / y).Denotes 0 := by
  have hx := isFinite_of_div h
  cases y with
  | nan =>
      obtain ⟨a, cx, rfl, -⟩ := (denotes_value hx).exists_finite
      cases h
  | infinity b => exact .inr (div_infinity hx b)
  | finite b cy =>
      refine .inl ⟨_, denotes_finite b cy, ?_⟩
      intro hzero
      have hcode := finite_denotes_zero_iff.mp (hzero ▸ denotes_finite b cy)
      obtain ⟨a, cx, rfl, -⟩ := (denotes_value hx).exists_finite
      have hquotient : (finite a cx : Binary f) / finite b cy =
          if cx.val = 0 then nan else infinity (a ^^ b) := if_pos hcode
      rw [hquotient] at h
      split at h <;> cases h

/-- Zero over anything but itself is zero. -/
theorem denotes_zero_div (hx : x.Denotes 0) (hnan : y.isNaN = false) (hy : ¬y.Denotes 0) :
    (x / y).Denotes 0 := by
  cases y with
  | nan => cases hnan
  | infinity b => exact div_infinity hx.isFinite_eq b
  | finite b cy =>
      have hs := denotes_finite b cy
      have hs0 : (signed b (f.units cy) : ℚ) / f.one ≠ 0 := fun h => hy (h ▸ hs)
      have hquotient := hx.div hs hs0
      rw [zero_div] at hquotient
      exact hquotient.denotes_exact hx.representable hx.abs_lt_limit

theorem isFinite_of_foldl_add (xs : List (Binary f)) :
    ∀ {start : Binary f}, (xs.foldl (· + ·) start).isFinite = true →
      start.isFinite = true ∧ ∀ x ∈ xs, x.isFinite = true := by
  induction xs with
  | nil =>
      intro start h
      exact ⟨h, fun x hx => absurd hx List.not_mem_nil⟩
  | cons y rest ih =>
      intro start h
      obtain ⟨hstart, hrest⟩ := ih h
      obtain ⟨hstart, hy⟩ := isFinite_of_add hstart
      refine ⟨hstart, ?_⟩
      intro x hx
      rcases List.mem_cons.mp hx with rfl | hx
      · exact hy
      · exact hrest x hx

theorem isFinite_of_sum {xs : List (Binary f)} (h : (sum xs).isFinite = true) :
    ∀ x ∈ xs, x.isFinite = true :=
  (isFinite_of_foldl_add xs h).2

end Binary

/-! ## The largest value -/

namespace Format

variable (f : Format)

/-- The magnitude of the largest finite value. -/
def largest : ℚ := f.magnitude (f.infinityCode - 1)

variable {f}

/-- Its coefficient has all bits set, in the last binade. -/
theorem units_largest : f.units (f.infinityCode - 1) =
    (2 * 2 ^ f.fractionBits - 1) * 2 ^ (2 ^ f.exponentBits - 3) := by
  have hF : 0 < 2 ^ f.fractionBits := Nat.two_pow_pos _
  have hexp : 4 ≤ 2 ^ f.exponentBits := by
    calc 4 = 2 ^ 2 := rfl
      _ ≤ 2 ^ f.exponentBits := Nat.pow_le_pow_right (by decide) f.one_lt_exponentBits
  have hsplit : f.Splits (2 ^ f.exponentBits - 3) (2 * 2 ^ f.fractionBits - 1) :=
    ⟨by omega, Or.inr (by omega)⟩
  have hcode : f.infinityCode - 1 =
      (2 ^ f.exponentBits - 3) * 2 ^ f.fractionBits + (2 * 2 ^ f.fractionBits - 1) := by
    obtain ⟨e, he⟩ : ∃ e, 2 ^ f.exponentBits = e + 3 := ⟨2 ^ f.exponentBits - 3, by omega⟩
    rw [infinityCode_eq, he, Nat.add_sub_cancel, Nat.add_sub_assoc (by decide : 1 ≤ 3), Nat.add_mul]
    omega
  rw [hcode, hsplit.units_eq]

theorem largest_eq : f.largest * f.one =
    ((2 * 2 ^ f.fractionBits - 1 : ℕ) : ℚ) * 2 ^ (2 ^ f.exponentBits - 3) := by
  have hone := f.one_cast_pos
  unfold largest magnitude
  rw [div_mul_cancel₀ _ hone.ne', units_largest, Nat.cast_mul, Nat.cast_pow, Nat.cast_ofNat]

/-- A magnitude from a binade on is a whole number of its spacings. -/
theorem two_pow_dvd_units {code shift : Nat} (h : 2 ^ f.fractionBits * 2 ^ shift ≤ f.units code) :
    2 ^ shift ∣ f.units code := by
  obtain ⟨s, m, hcode, hsplit, hlt⟩ := f.exists_splits code
  have hunits : f.units code = m * 2 ^ s := by rw [hcode, hsplit.units_eq]
  rw [hunits] at h ⊢
  have hshift : shift ≤ s := by
    by_contra hgt
    have hpow : 2 ^ (s + 1) ≤ 2 ^ shift := Nat.pow_le_pow_right (by decide) (by omega)
    have hF : 0 < 2 ^ f.fractionBits := Nat.two_pow_pos _
    have hs : 0 < 2 ^ s := Nat.two_pow_pos _
    have hlow : 2 ^ f.fractionBits * 2 ^ (s + 1) ≤ m * 2 ^ s :=
      (Nat.mul_le_mul_left _ hpow).trans h
    have hhigh : m * 2 ^ s < 2 * 2 ^ f.fractionBits * 2 ^ s := Nat.mul_lt_mul_of_pos_right hlt hs
    have heq : 2 * 2 ^ f.fractionBits * 2 ^ s = 2 ^ f.fractionBits * 2 ^ (s + 1) := by
      rw [Nat.pow_succ]
      ring
    omega
  exact Nat.dvd_trans (Nat.pow_dvd_pow 2 hshift) (Nat.dvd_mul_left _ _)

/--
The coefficient `m` of a value, times one that has all bits set, is `m` less than a whole number of
steps of `2 * 2 ^ k`. That is more than half a step, so what is rounded to such steps is rounded
down.
-/
theorem le_mul_of_rounded {F k m w u : Nat} (hw : 0 < w) (hkF : k ≤ F) (hlow : 2 ^ k < m)
    (hhigh : m < 2 * 2 ^ k) (hdvd : 2 * 2 ^ k * w ∣ u)
    (hclose : 2 * u ≤ 2 * (m * (2 * 2 ^ F - 1) * w) + 2 * 2 ^ k * w) :
    u ≤ m * (2 * 2 ^ F - 1) * w := by
  obtain ⟨q, rfl⟩ := hdvd
  obtain ⟨g, rfl⟩ : ∃ g, F = k + g := ⟨F - k, by omega⟩
  have hproduct : m * (2 * 2 ^ (k + g) - 1) = 2 * (2 ^ k * (m * 2 ^ g)) - m := by
    rw [Nat.mul_sub, Nat.mul_one, Nat.pow_add]
    congr 1
    ring
  have hsteps : 2 * 2 ^ k * w * q = 2 * (2 ^ k * q) * w := by ring
  rw [hproduct, hsteps] at hclose ⊢
  have hclose' : 2 * (2 * (2 ^ k * q)) ≤ 2 * (2 * (2 ^ k * (m * 2 ^ g)) - m) + 2 * 2 ^ k := by
    refine Nat.le_of_mul_le_mul_right ?_ hw
    calc 2 * (2 * (2 ^ k * q)) * w = 2 * (2 * (2 ^ k * q) * w) := by ring
      _ ≤ 2 * ((2 * (2 ^ k * (m * 2 ^ g)) - m) * w) + 2 * 2 ^ k * w := hclose
      _ = (2 * (2 * (2 ^ k * (m * 2 ^ g)) - m) + 2 * 2 ^ k) * w := by ring
  -- the next step up is out of reach
  have hlt : q < m * 2 ^ g := by
    by_contra hge
    have := Nat.mul_le_mul_left (2 ^ k) (not_lt.mp hge)
    have hm : m ≤ 2 * (2 ^ k * (m * 2 ^ g)) := by
      have h1 : 1 ≤ 2 ^ k * 2 ^ g := Nat.mul_pos (Nat.two_pow_pos k) (Nat.two_pow_pos g)
      have h2 := Nat.mul_le_mul_left m h1
      have h3 : 2 ^ k * (m * 2 ^ g) = m * (2 ^ k * 2 ^ g) := by ring
      omega
    omega
  have hstep := Nat.mul_le_mul_left (2 ^ k) (Nat.succ_le_of_lt hlt)
  rw [Nat.succ_eq_add_one, Nat.mul_add, Nat.mul_one] at hstep
  refine Nat.mul_le_mul_right w ?_
  omega

/-- What that product is at least, if the coefficient is not a power of two. -/
theorem two_pow_mul_le_mul_ones {F k m : Nat} (hkF : k ≤ F) (hlow : 2 ^ k < m) :
    2 ^ F * (2 * 2 ^ k) ≤ m * (2 * 2 ^ F - 1) := by
  have hpow : 2 ^ k ≤ 2 ^ F := Nat.pow_le_pow_right (by decide) hkF
  have hF : 0 < 2 ^ F := Nat.two_pow_pos F
  obtain ⟨t, ht⟩ : ∃ t, 2 * 2 ^ F = t + 1 := ⟨2 * 2 ^ F - 1, by omega⟩
  have hmul := Nat.mul_le_mul_right t (Nat.succ_le_of_lt hlow)
  rw [Nat.succ_eq_add_one, Nat.add_mul, Nat.one_mul] at hmul
  calc 2 ^ F * (2 * 2 ^ k) = 2 ^ k * (2 * 2 ^ F) := by ring
    _ = 2 ^ k * t + 2 ^ k := by rw [ht, Nat.mul_add, Nat.mul_one]
    _ ≤ 2 ^ k * t + t := by omega
    _ ≤ m * t := hmul
    _ = m * (2 * 2 ^ F - 1) := by rw [ht, Nat.add_sub_cancel]

/-- Up to the end of a binade what is rounded moves by half a step of that binade at most. -/
theorem two_mul_units_codeOf_le {N shift : Nat} (hsize : N ≤ 2 * 2 ^ f.fractionBits * 2 ^ shift) :
    2 * f.units (f.codeOf ((N : ℚ) / f.one)) ≤ 2 * N + 2 ^ shift := by
  have hone := f.one_cast_pos
  have herror := f.nearest_error_le_pow (r := (N : ℚ) / f.one) (k := shift) (by
    rw [abs_of_nonneg (by positivity), div_mul_cancel₀ _ hone.ne']
    exact_mod_cast hsize)
  rw [nearest_of_nonneg (by positivity)] at herror
  unfold magnitude at herror
  rw [← sub_div, abs_div, abs_of_pos hone, div_le_div_iff₀ hone (by positivity)] at herror
  have habs := le_abs_self ((f.units (f.codeOf ((N : ℚ) / f.one)) : ℚ) - N)
  have hle : (f.units (f.codeOf ((N : ℚ) / f.one)) : ℚ) - N ≤ 2 ^ shift / 2 := by
    rw [le_div_iff₀ (by norm_num)]
    nlinarith
  have hcast : (2 * f.units (f.codeOf ((N : ℚ) / f.one)) : ℚ) ≤ 2 * N + 2 ^ shift := by linarith
  exact_mod_cast hcast

/-- A product with a power of two is exact. -/
theorem units_codeOf_two_pow_mul_ones (k e : Nat) :
    f.units (f.codeOf ((2 ^ k * (2 * 2 ^ f.fractionBits - 1) * 2 ^ e : Nat) / f.one)) =
      2 ^ k * (2 * 2 ^ f.fractionBits - 1) * 2 ^ e := by
  obtain ⟨code, hcode⟩ := f.exists_units_eq (k + e) (2 * 2 ^ f.fractionBits - 1) (by omega)
  have hproduct : 2 ^ k * (2 * 2 ^ f.fractionBits - 1) * 2 ^ e = f.units code := by
    rw [hcode, Nat.pow_add]
    ring
  have hself : f.codeOf (f.magnitude code) = code :=
    codeOf_of_abs_eq (abs_of_nonneg (f.magnitude_nonneg code))
  unfold magnitude at hself
  rw [hproduct, hself]

/-- Any other coefficient of `k + 1` bits leaves the product below a whole step, and in a binade of
that step. -/
theorem units_codeOf_mul_ones_le {k m : Nat} (hkF : k ≤ f.fractionBits) (hlow : 2 ^ k < m)
    (hhigh : m < 2 * 2 ^ k) (e : Nat) :
    f.units (f.codeOf ((m * (2 * 2 ^ f.fractionBits - 1) * 2 ^ e : Nat) / f.one)) ≤
      m * (2 * 2 ^ f.fractionBits - 1) * 2 ^ e := by
  have hstep : 2 ^ (k + 1 + e) = 2 * 2 ^ k * 2 ^ e := by
    rw [Nat.pow_add, Nat.pow_succ, Nat.mul_comm 2]
  have hbinade : 2 ^ f.fractionBits * 2 ^ (k + 1 + e) ≤
      m * (2 * 2 ^ f.fractionBits - 1) * 2 ^ e := by
    rw [hstep, ← Nat.mul_assoc]
    exact Nat.mul_le_mul_right _ (two_pow_mul_le_mul_ones hkF hlow)
  have hsize : m * (2 * 2 ^ f.fractionBits - 1) * 2 ^ e ≤
      2 * 2 ^ f.fractionBits * 2 ^ (k + 1 + e) := by
    rw [hstep, ← Nat.mul_assoc]
    refine Nat.mul_le_mul_right _ ?_
    calc m * (2 * 2 ^ f.fractionBits - 1) ≤ 2 * 2 ^ k * (2 * 2 ^ f.fractionBits) :=
          Nat.mul_le_mul hhigh.le (Nat.sub_le _ _)
      _ = 2 * 2 ^ f.fractionBits * (2 * 2 ^ k) := Nat.mul_comm _ _
  by_contra hover
  have hdvd := two_pow_dvd_units (hbinade.trans (not_le.mp hover).le)
  have hclose := two_mul_units_codeOf_le hsize
  rw [hstep] at hdvd hclose
  exact hover (le_mul_of_rounded (Nat.two_pow_pos e) hkF hlow hhigh hdvd hclose)

/-- A product with the largest value, counted in units. -/
theorem exists_mul_largest_eq (hplaces : f.places ≤ 2 ^ f.exponentBits - 3) {r : ℚ}
    (hr : f.Representable r) (h0 : 0 ≤ r) :
    ∃ m e, m < 2 * 2 ^ f.fractionBits ∧
      r * f.largest = ((m * (2 * 2 ^ f.fractionBits - 1) * 2 ^ e : Nat) : ℚ) / f.one := by
  have hone := f.one_cast_pos
  obtain ⟨code, hcode⟩ := hr
  obtain ⟨s, m, hsum, hsplit, hlt⟩ := f.exists_splits code
  obtain ⟨j, hj⟩ : ∃ j, 2 ^ f.exponentBits - 3 = j + f.places :=
    ⟨2 ^ f.exponentBits - 3 - f.places, by omega⟩
  refine ⟨m, s + j, hlt, ?_⟩
  have hlargest := f.largest_eq
  rw [hj, pow_add, ← f.one_cast] at hlargest
  rw [eq_div_iff hone.ne', mul_assoc, hlargest, ← abs_of_nonneg h0, hcode]
  unfold magnitude
  rw [hsum, hsplit.units_eq, Nat.cast_mul, Nat.cast_mul, Nat.cast_mul, Nat.cast_pow, Nat.cast_pow,
    Nat.cast_ofNat, pow_add]
  field_simp

/-- **A product with the largest value is not rounded up.** -/
theorem nearest_mul_largest_le (hplaces : f.places ≤ 2 ^ f.exponentBits - 3) {r : ℚ}
    (hr : f.Representable r) (h0 : 0 ≤ r) : f.nearest (r * f.largest) ≤ r * f.largest := by
  obtain ⟨m, e, hm, hproduct⟩ := exists_mul_largest_eq hplaces hr h0
  rw [hproduct, nearest_of_nonneg (by positivity)]
  unfold magnitude
  rw [div_le_div_iff_of_pos_right f.one_cast_pos, Nat.cast_le]
  rcases Nat.eq_zero_or_pos m with rfl | hpos
  · simp [units_zero]
  -- `k + 1` is the number of bits of the coefficient
  obtain ⟨k, hlow, hhigh⟩ : ∃ k, 2 ^ k ≤ m ∧ m < 2 * 2 ^ k := by
    refine ⟨m.log2, Nat.log2_self_le (by omega), ?_⟩
    have := Nat.lt_log2_self (n := m)
    rwa [Nat.pow_succ, Nat.mul_comm] at this
  rcases Nat.eq_or_lt_of_le hlow with rfl | hgt
  · exact (units_codeOf_two_pow_mul_ones k e).le
  · have hkF : k ≤ f.fractionBits := by
      have hpow : 2 ^ k < 2 ^ (f.fractionBits + 1) := by
        rw [Nat.pow_succ]
        omega
      have := (Nat.pow_lt_pow_iff_right (by decide : 1 < 2)).mp hpow
      omega
    exact units_codeOf_mul_ones_le hkF hgt hhigh e

theorem largest_single : single.largest = 2 ^ 128 - 2 ^ 104 := by
  have hone := single.one_cast_pos
  have h := single.largest_eq
  rw [← eq_div_iff hone.ne', one_cast] at h
  rw [h]
  norm_num [single, places_eq]

end Format

theorem Binary.Denotes.abs_le_largest {f : Format} {x : Binary f} {r : ℚ} (h : x.Denotes r) :
    |r| ≤ f.largest := by
  obtain ⟨code, hcode⟩ := h.abs_eq_magnitude
  have hlt := code.isLt
  rw [hcode]
  exact f.magnitude_strictMono.monotone (by omega)

end RoastTelemetry
