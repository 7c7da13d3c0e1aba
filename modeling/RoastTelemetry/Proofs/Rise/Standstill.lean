import RoastTelemetry.Proofs.Binary.Sums
import RoastTelemetry.Proofs.Rise.Readings

/-!
# Time that stands still

A regression skips a window over which time stands still. It tells by the spread of the times around
their mean, which must exceed a fixed threshold, and both are computed with rounding: once a partial
sum of equal times is rounded, their mean need not be what they are, and every one of them adds the
square of the difference to a spread that should be zero.

So a standstill is skipped exactly if what rounding leaves stays below the threshold, or is no
number. That is a matter of the length of the window and the bits of the time alone. It holds for
times that can be added up exactly, and for clocks and windows of moderate size.
-/

namespace RoastTelemetry.Rise

open Binary

variable {w n i : Nat} {t : Double} {r : ℚ} {points window : List TemperaturePoint}

/-! ## What rounding leaves -/

/-- How far a time is from the mean of `n` copies of it, as computed. -/
def drift (n : Nat) (t : Double) : Double := t - mean (List.replicate n t)

/-- The spread of `n` copies of a time, as computed. -/
def falseSpread (n : Nat) (t : Double) : Double := sum (List.replicate n (drift n t * drift n t))

theorem slope?_of_standstill (htime : ∀ p ∈ window, p.time = t) (hlength : window.length = n)
    (hn : 2 ≤ n) :
    slope? window =
      if falseSpread n t ≤ minVariance then none
      else some (sum (window.map fun p => drift n t *
        (p.temperature.widen - mean (window.map (·.temperature.widen)))) / falseSpread n t) := by
  have htimes : ∀ {α : Type} (g : Double → α),
      window.map (fun p => g p.time) = List.replicate n (g t) := by
    intro α g
    rw [List.map_congr_left fun p hp => congrArg g (htime p hp), List.map_const', hlength]
  have hcommon : ∀ m m' : Double,
      window.map (fun p => (p.time - m) * (p.temperature.widen - m')) =
        window.map fun p => (t - m) * (p.temperature.widen - m') :=
    fun m m' => List.map_congr_left fun p hp => by rw [htime p hp]
  unfold slope?
  rw [if_neg (by omega)]
  dsimp only
  rw [htimes (fun x => x), htimes (fun x => (x - _) * (x - _)), hcommon]
  rfl

/-- The spread is no NaN where the difference is finite. -/
theorem nonneg_falseSpread (h : (drift n t).isFinite = true) : 0 ≤ falseSpread n t := by
  have hd := denotes_value h
  refine nonneg_sum ?_
  intro x hx
  rw [List.eq_of_mem_replicate hx]
  exact rounds_zero.le (hd.mul hd) (mul_self_nonneg _)

/-! ## When a standstill is skipped -/

/-- The window that ends at position `i` has one time all along, and finite temperatures. -/
structure StandsStill (w : Nat) (points : List TemperaturePoint) (i : Nat) (t : Double) : Prop where
  /-- The window begins in the curve. -/
  le : w ≤ i
  /-- It ends there. -/
  lt_length : i < points.length
  /-- Time stands still. -/
  time_eq : ∀ p ∈ (points.drop (i - w)).take (w + 1), p.time = t
  /-- All temperatures were read. -/
  isFinite_temperature : ∀ p ∈ (points.drop (i - w)).take (w + 1), p.temperature.isFinite = true

/-- No curve has an estimate at the end of such a window. -/
def SkipsStandstill (w : Nat) (t : Double) : Prop :=
  ∀ points i, StandsStill w points i t → i ∉ positions .linearRegression w points

theorem StandsStill.length_window (h : StandsStill w points i t) :
    ((points.drop (i - w)).take (w + 1)).length = w + 1 := by
  have hle := h.le
  have hlt := h.lt_length
  rw [List.length_take, List.length_drop]
  omega

/-- An estimate takes two points, a spread, and a mean that is a number. -/
theorem StandsStill.of_mem_positions (h : StandsStill w points i t)
    (hi : i ∈ positions .linearRegression w points) :
    w ≠ 0 ∧ ¬falseSpread (w + 1) t ≤ minVariance ∧ (drift (w + 1) t).isFinite = true := by
  obtain ⟨q, -, start, stop, rate, -, -, hrate, hfinite, -⟩ := mem_positions_iff.mp hi
  obtain ⟨slope, hslope, rfl⟩ := Option.map_eq_some_iff.mp hrate
  have hw : w ≠ 0 := by
    rintro rfl
    unfold slope? at hslope
    rw [if_pos (by rw [h.length_window]; decide)] at hslope
    cases hslope
  rw [slope?_of_standstill h.time_eq h.length_window (by omega)] at hslope
  split at hslope
  · cases hslope
  · rename_i hspread
    obtain rfl := Option.some.inj hslope
    refine ⟨hw, hspread, ?_⟩
    -- the first point has its term in the sum of products
    have hproducts := isFinite_of_div (isFinite_of_mul (isFinite_of_convert hfinite)).1
    have hne : (points.drop (i - w)).take (w + 1) ≠ [] := by
      rw [← List.length_pos_iff, h.length_window]
      exact Nat.succ_pos w
    obtain ⟨p, hp⟩ := List.exists_mem_of_ne_nil _ hne
    exact (isFinite_of_mul (isFinite_of_sum hproducts _ (List.mem_map_of_mem hp))).1

/-- A curve of one point, read again and again at zero degrees. -/
def still (w : Nat) (t : Double) : List TemperaturePoint := List.replicate (w + 1) ⟨t, 0⟩

theorem standsStill_still (w : Nat) (t : Double) : StandsStill w (still w t) w t where
  le := le_rfl
  lt_length := by
    unfold still
    rw [List.length_replicate]
    exact Nat.lt_succ_self w
  time_eq p hp := by
    rw [List.eq_of_mem_replicate (List.mem_of_mem_drop (List.mem_of_mem_take hp))]
  isFinite_temperature p hp := by
    rw [List.eq_of_mem_replicate (List.mem_of_mem_drop (List.mem_of_mem_take hp))]
    exact denotes_zero.isFinite_eq

theorem mean_temperature_still (w : Nat) (t : Double) :
    mean ((still w t).map (·.temperature.widen)) = 0 := by
  have hwiden : (0 : Single).widen = 0 := by decide +kernel
  have hzero : (0 : Double) + 0 = 0 := by decide +kernel
  unfold still mean sum
  rw [List.map_replicate, foldl_replicate (by rwa [hwiden]), List.length_replicate]
  exact zero_div_ofNat w.succ_pos

/-- No rise at all, wherever the computed spread is not taken for zero. -/
theorem denotes_slope_still (hspread : ¬falseSpread n t ≤ minVariance)
    (hdrift : (drift n t).isFinite = true) :
    (sum ((still w t).map fun (p : TemperaturePoint) => drift n t * (p.temperature.widen - 0)) /
      falseSpread n t).Denotes 0 := by
  have hnonneg := nonneg_falseSpread hdrift
  have hcentred : (0 : Single).widen - 0 = 0 := by decide +kernel
  have hvariance : 0 ≤ minVariance := by decide +kernel
  refine denotes_zero_div (denotes_zero_sum ?_) (isNaN_of_le hnonneg).2 ?_
  · intro x hx
    obtain ⟨p, hp, rfl⟩ := List.mem_map.mp hx
    rw [List.eq_of_mem_replicate hp, hcentred]
    exact (denotes_value hdrift).zero_of_mul denotes_zero (mul_zero _)
  · intro hzero
    have hle : falseSpread n t ≤ 0 := (hzero.le_iff denotes_zero).mpr le_rfl
    exact hspread (le_trans hle hvariance)

theorem mem_positions_still (hw : w ≠ 0) (hspread : ¬falseSpread (w + 1) t ≤ minVariance)
    (hdrift : (drift (w + 1) t).isFinite = true) :
    w ∈ positions .linearRegression w (still w t) := by
  have hwindow : ((still w t).drop (w - w)).take (w + 1) = still w t := by
    rw [Nat.sub_self, List.drop_zero]
    exact List.take_of_length_le (by simp [still])
  have htime : ∀ p ∈ still w t, p.time = t := by
    have h := (standsStill_still w t).time_eq
    rwa [hwindow] at h
  have hslope := slope?_of_standstill (n := w + 1) htime (by simp [still]) (by omega)
  rw [if_neg hspread, mean_temperature_still] at hslope
  have hzero := denotes_slope_still (w := w) hspread hdrift
  have hrate := hzero.zero_of_mul denotes_secondsPerMinute (zero_mul _)
  have hnarrow := (hrate.convert .single).denotes_of_fits denotes_zero.fits
  have hpoint : ∀ i < w + 1, (still w t)[i]? = some ⟨t, 0⟩ := by
    intro i hi
    unfold still
    rw [List.getElem?_replicate, if_pos hi]
  refine mem_positions_iff.mpr ⟨_, le_rfl, _, _, _, hpoint _ (by omega), hpoint _ (by omega), ?_,
    hnarrow.isFinite_eq, rfl⟩
  unfold windowRate? regressionRate?
  rw [hwindow, hslope]
  rfl

/-! ## Clocks that are precise enough -/

theorem liesIn_minVariance : minVariance.LiesIn (1 / 2 ^ 30) 1 := by
  have hrounds : minVariance.Rounds ((1 : Nat) / 10 ^ 9) := rounds_ofScientific 1 9
  have hfits := (Format.multiplesFit_one_div (n := 1) (j := 30) (by norm_num) (by norm_num)).fits
    Nat.one_pos
  exact hrounds.liesIn hfits denotes_one.fits (by norm_num) (by norm_num)

/-- A difference up to `1 / 2 ^ j` adds its square for each of at most `2 ^ k` points. -/
theorem falseSpread_le {m : ℚ} {j k : Nat} (ht : t.Denotes r)
    (hm : (mean (List.replicate n t)).Denotes m) (hclose : |r - m| ≤ 1 / 2 ^ j) (hn : 0 < n)
    (hlength : n ≤ 2 ^ k) (hk : k ≤ 53) (hj : 2 * j ≤ 1074) (hroom : k + 30 ≤ 2 * j) :
    falseSpread n t ≤ minVariance := by
  have hbits : n ≤ 2 ^ 53 := hlength.trans (Nat.pow_le_pow_right (by norm_num) hk)
  have hfits : Format.double.Fits (1 / 2 ^ j) :=
    (Format.multiplesFit_one_div (n := 1) (by norm_num) (by omega)).fits Nat.one_pos
  have hsquares : Format.double.MultiplesFit n (1 / 2 ^ (2 * j)) :=
    Format.multiplesFit_one_div hbits hj
  obtain ⟨hlow, hhigh⟩ := abs_le.mp hclose
  obtain ⟨d, hd, hdlow, hdhigh⟩ := (ht.sub hm).liesIn hfits.neg hfits hlow hhigh
  have hsquare : d * d ≤ 1 / 2 ^ (2 * j) :=
    calc d * d = |d| * |d| := (abs_mul_abs_self d).symm
      _ ≤ 1 / 2 ^ j * (1 / 2 ^ j) :=
          mul_self_le_mul_self (abs_nonneg d) (abs_le.mpr ⟨hdlow, hdhigh⟩)
      _ = 1 / 2 ^ (2 * j) := by rw [two_mul, pow_add, one_div_mul_one_div]
  have hterms : ∀ x ∈ List.replicate n (drift n t * drift n t),
      x.LiesIn 0 (1 / 2 ^ (2 * j)) := by
    intro x hx
    rw [List.eq_of_mem_replicate hx]
    exact (hd.mul hd).liesIn denotes_zero.fits (hsquares.fits hn) (mul_self_nonneg d) hsquare
  have hsum := liesIn_sum hterms Format.multiplesFit_zero (by rwa [List.length_replicate])
  rw [List.length_replicate] at hsum
  obtain ⟨s, hs, -, hsmall⟩ := hsum
  obtain ⟨v, hv, hlarge, -⟩ := liesIn_minVariance
  refine (hs.le_iff hv).mpr ((hsmall.trans ?_).trans hlarge)
  calc (n : ℚ) * (1 / 2 ^ (2 * j)) ≤ 2 ^ k * (1 / 2 ^ (2 * j)) := by
        refine mul_le_mul_of_nonneg_right ?_ (by positivity)
        exact_mod_cast hlength
    _ ≤ 1 / 2 ^ 30 := by
        rw [mul_one_div, div_le_div_iff₀ (by positivity) (by positivity), ← pow_add, one_mul]
        exact pow_le_pow_right₀ (by norm_num) hroom

/-- Equal times have their own value as their mean if it takes no rounding to add them up. -/
theorem falseSpread_le_of_multiplesFit (ht : t.Denotes r) (hn : 0 < n) (hlength : n ≤ 2 ^ 53)
    (hr : Format.double.MultiplesFit n r) : falseSpread n t ≤ minVariance := by
  have hmean := denotes_mean_replicate hn (denotes_ofNat_double hlength) ht hr
  refine falseSpread_le (j := 42) (k := 53) ht hmean ?_ hn hlength ?_ ?_ ?_
  · rw [sub_self, abs_zero]
    positivity
  · norm_num
  · norm_num
  · norm_num

/-- Otherwise the mean is off by no more than the sum is rounded. -/
theorem falseSpread_le_of_abs_le {k a : Nat} (ht : t.Denotes r) (hn : 0 < n) (hlength : n ≤ 2 ^ k)
    (hr : |r| ≤ 2 ^ a) (hroom : 3 * k + 2 * a ≤ 74) : falseSpread n t ≤ minVariance := by
  have hbits : n ≤ 2 ^ 53 := hlength.trans (Nat.pow_le_pow_right (by norm_num) (by omega))
  have hcount : (n : ℚ) ≤ 2 ^ k := by exact_mod_cast hlength
  -- the sum of all terms takes half of what lies below `2 ^ (a + k + 1)`, its error the rest
  have hunit : roundingUnit .double (a + k + 1) ≤ 2 ^ a := by
    rw [roundingUnit_double, div_le_iff₀ (by positivity), ← pow_add]
    exact pow_le_pow_right₀ (by norm_num) (by omega)
  have hsum : n * |r| + n * roundingUnit .double (a + k + 1) ≤ 2 ^ (a + k + 1) :=
    calc n * |r| + n * roundingUnit .double (a + k + 1) ≤ 2 ^ k * 2 ^ a + 2 ^ k * 2 ^ a := by
          gcongr
          exact roundingUnit_nonneg _
      _ = 2 ^ (a + k + 1) := by ring
  obtain ⟨m, hm, hclose⟩ := exists_denotes_mean_replicate (by decide)
    (Format.two_pow_lt_limit_double (by omega)) hn (denotes_ofNat_double hbits) ht hsum
  refine falseSpread_le (j := 52 - (a + k)) ht hm ?_ hn hlength (by omega) (by omega) (by omega)
  rw [abs_sub_comm]
  refine hclose.trans ?_
  have hsplit : (2 : ℚ) ^ 52 = 2 ^ (52 - (a + k)) * 2 ^ (a + k) := by
    rw [← pow_add, Nat.sub_add_cancel (by omega)]
  rw [roundingUnit_double, le_div_iff₀ (by positivity)]
  calc 2 * (2 ^ (a + k + 1) / 2 ^ 54) * (2 : ℚ) ^ (52 - (a + k))
      = 2 ^ (52 - (a + k)) * 2 ^ (a + k) / 2 ^ 52 := by ring
    _ ≤ 1 := by rw [← hsplit, div_self (by positivity)]

/--
**When a regression skips a standstill.**

Over windows of `w` intervals a standstill at `t` is skipped exactly if the window has a single
point, or the spread that is computed for it is within the threshold, or the time has no finite
distance from the computed mean. That is so if none of the first `w + 1` multiples of `t` is
rounded, and also if there are few points and their time is small. It is not so for every time.
-/
theorem skipsStandstill_iff (w : Nat) (t : Double) :
    (SkipsStandstill w t ↔
      w = 0 ∨ falseSpread (w + 1) t ≤ minVariance ∨ (drift (w + 1) t).isFinite = false) ∧
    (∀ r, t.Denotes r → w + 1 ≤ 2 ^ 53 → Format.double.MultiplesFit (w + 1) r →
      SkipsStandstill w t) ∧
    ∀ r k a, t.Denotes r → w + 1 ≤ 2 ^ k → |r| ≤ 2 ^ a → 3 * k + 2 * a ≤ 74 →
      SkipsStandstill w t := by
  have hiff : SkipsStandstill w t ↔
      w = 0 ∨ falseSpread (w + 1) t ≤ minVariance ∨ (drift (w + 1) t).isFinite = false := by
    constructor
    · intro hskips
      by_contra h
      obtain ⟨hw, h⟩ := not_or.mp h
      obtain ⟨hspread, hdrift⟩ := not_or.mp h
      exact hskips _ _ (standsStill_still w t)
        (mem_positions_still hw hspread (Bool.not_eq_false _ ▸ hdrift))
    · intro h points i hstill hi
      obtain ⟨hw, hspread, hdrift⟩ := hstill.of_mem_positions hi
      rcases h with h | h | h
      · exact hw h
      · exact hspread h
      · rw [hdrift] at h
        cases h
  refine ⟨hiff, ?_, ?_⟩
  · intro r ht hlength hr
    exact hiff.mpr (.inr (.inl (falseSpread_le_of_multiplesFit ht w.succ_pos hlength hr)))
  · intro r k a ht hlength hr hroom
    exact hiff.mpr (.inr (.inl (falseSpread_le_of_abs_le ht w.succ_pos hlength hr hroom)))

/-- Seconds of an epoch with a decimal over five intervals, and without one over an hour. -/
theorem skipsStandstill_epoch :
    SkipsStandstill 5 1712000000.1 ∧ SkipsStandstill 3600 1712000000 := by
  constructor
  · have ht : (1712000000.1 : Double).Denotes (1712000000.1 : Double).value :=
      denotes_value (by decide +kernel)
    have hlow := (denotes_zero.le_iff ht).mp (by decide +kernel)
    have hhigh := (ht.le_iff (denotes_ofNat_double (n := 2 ^ 31) (by norm_num))).mp
      (by decide +kernel)
    refine (skipsStandstill_iff 5 _).2.2 _ 3 31 ht (by norm_num) ?_ (by norm_num)
    rw [abs_of_nonneg hlow]
    exact_mod_cast hhigh
  · have ht : (1712000000 : Double).Denotes (1712000000 : Nat) :=
      denotes_ofNat_double (by norm_num)
    have hfits := Format.multiplesFit_double (n := 3601) (i := 1712000000) (j := 0) (by norm_num)
      (by norm_num)
    refine (skipsStandstill_iff 3600 _).2.1 _ ht (by norm_num) ?_
    simpa using hfits

/-- Milliseconds of an epoch with a decimal: three points at one time, and a rate for the last. -/
theorem standstill_not_skipped :
    let t : Double := 1712000000123.4
    let points : List TemperaturePoint := [⟨t, 100⟩, ⟨t, 101⟩, ⟨t, 102⟩]
    t.isFinite = true ∧ StandsStill 2 points 2 t ∧
      estimate .linearRegression 2 points = [⟨t, 102, 0⟩] ∧ ¬SkipsStandstill 2 t := by
  intro t points
  have hstill : StandsStill 2 points 2 t :=
    ⟨by decide, by decide, by decide +kernel, by decide +kernel⟩
  have hposition : 2 ∈ positions .linearRegression 2 points := by decide +kernel
  exact ⟨by decide +kernel, hstill, by decide +kernel, fun h => h points 2 hstill hposition⟩

end RoastTelemetry.Rise
