import RoastTelemetry.Proofs.Binary.Bounds
import Mathlib.Algebra.BigOperators.Group.List.Basic

/-!
# Sums in list order

Every partial sum is rounded, and thousands of roundings may add up. Two facts say how far.

A bound of all terms, taken as often as there are terms, bounds the sum, if none of its multiples is
rounded. So a mean lies between bounds of its terms, with nothing to allow for rounding, and the
mean of equal terms is what they are.

In general every addition is off by half the distance of the codes up to the largest partial sum,
and no more is lost than that much a term.
-/

namespace RoastTelemetry

namespace Binary

variable {f : Format} {x total : Binary f} {xs : List (Binary f)} {low high r : ℚ} {k : Nat}

/-- Copies that change nothing. -/
theorem foldl_replicate {α β : Type} {op : β → α → β} {x : β} {y : α} (h : op x y = x) (n : Nat) :
    (List.replicate n y).foldl op x = x := by
  induction n with
  | zero => rfl
  | succ n ih => rw [List.replicate_succ, List.foldl_cons, h, ih]

/-! ## Between multiples of two bounds -/

/-- One term more, and one multiple more. -/
theorem LiesIn.add (htotal : total.LiesIn (k * low) (k * high)) (hx : x.LiesIn low high)
    (hlow : f.MultiplesFit (k + 1) low) (hhigh : f.MultiplesFit (k + 1) high) :
    (total + x).LiesIn ((k + 1 : Nat) * low) ((k + 1 : Nat) * high) := by
  obtain ⟨s, hs, hsl, hsh⟩ := htotal
  obtain ⟨r, hr, hrl, hrh⟩ := hx
  refine (hs.add hr).liesIn (hlow _ le_rfl) (hhigh _ le_rfl) ?_ ?_
  · push_cast
    linarith
  · push_cast
    linarith

theorem LiesIn.foldl_add (htotal : total.LiesIn (k * low) (k * high))
    (hxs : ∀ x ∈ xs, x.LiesIn low high) (hlow : f.MultiplesFit (k + xs.length) low)
    (hhigh : f.MultiplesFit (k + xs.length) high) :
    (xs.foldl (· + ·) total).LiesIn ((k + xs.length : Nat) * low)
      ((k + xs.length : Nat) * high) := by
  induction xs generalizing total k with
  | nil => exact htotal
  | cons x rest ih =>
      have hlength : k + (x :: rest).length = k + 1 + rest.length := by
        rw [List.length_cons]
        omega
      rw [hlength] at hlow hhigh ⊢
      have hle : k + 1 ≤ k + 1 + rest.length := Nat.le_add_right _ _
      exact ih (htotal.add (hxs x List.mem_cons_self) (hlow.mono hle) (hhigh.mono hle))
        (fun y hy => hxs y (List.mem_cons_of_mem x hy)) hlow hhigh

/-- **A sum lies between as many times the bounds of its terms.** -/
theorem liesIn_sum (hxs : ∀ x ∈ xs, x.LiesIn low high) (hlow : f.MultiplesFit xs.length low)
    (hhigh : f.MultiplesFit xs.length high) :
    (sum xs).LiesIn (xs.length * low) (xs.length * high) := by
  have hzero : (0 : Binary f).LiesIn ((0 : Nat) * low) ((0 : Nat) * high) :=
    ⟨0, denotes_zero, by simp, by simp⟩
  have hsum := hzero.foldl_add hxs (by rwa [Nat.zero_add]) (by rwa [Nat.zero_add])
  rwa [Nat.zero_add] at hsum

/-- **A mean lies between the bounds of its terms.** -/
theorem liesIn_mean (hne : xs ≠ []) (hlength : (ofNat xs.length : Binary f).Denotes xs.length)
    (hxs : ∀ x ∈ xs, x.LiesIn low high) (hlow : f.MultiplesFit xs.length low)
    (hhigh : f.MultiplesFit xs.length high) : (mean xs).LiesIn low high := by
  have hpos : 0 < xs.length := List.length_pos_iff.mpr hne
  have hcount : (0 : ℚ) < xs.length := by exact_mod_cast hpos
  obtain ⟨s, hs, hl, hh⟩ := liesIn_sum hxs hlow hhigh
  refine (hs.div hlength hcount.ne').liesIn (hlow.fits hpos) (hhigh.fits hpos) ?_ ?_
  · rw [le_div_iff₀ hcount]
    linarith
  · rw [div_le_iff₀ hcount]
    linarith

/-- The mean of equal terms is what they are, if no partial sum is rounded. -/
theorem denotes_mean_replicate {n : Nat} (hn : 0 < n) (hlength : (ofNat n : Binary f).Denotes n)
    (hx : x.Denotes r) (hr : f.MultiplesFit n r) : (mean (List.replicate n x)).Denotes r := by
  have hne : List.replicate n x ≠ [] := by
    rw [ne_eq, List.replicate_eq_nil_iff]
    omega
  have hterms : ∀ y ∈ List.replicate n x, y.LiesIn r r := by
    intro y hy
    rw [List.eq_of_mem_replicate hy]
    exact ⟨r, hx, le_rfl, le_rfl⟩
  have hmean := liesIn_mean hne (by rwa [List.length_replicate]) hterms
    (by rwa [List.length_replicate]) (by rwa [List.length_replicate])
  obtain ⟨s, hs, hl, hh⟩ := hmean
  rwa [le_antisymm hh hl] at hs

theorem denotes_zero_sum (hxs : ∀ x ∈ xs, x.Denotes 0) : (sum xs).Denotes 0 := by
  obtain ⟨r, hr, hl, hh⟩ := liesIn_sum (fun x hx => ⟨0, hxs x hx, le_rfl, le_rfl⟩)
    Format.multiplesFit_zero Format.multiplesFit_zero
  rw [mul_zero] at hl hh
  rwa [le_antisymm hh hl] at hr

/-! ## Terms that are not negative -/

theorem nonneg_add {y : Binary f} (hx : 0 ≤ x) (hy : 0 ≤ y) : 0 ≤ x + y := by
  cases hfinite : x.isFinite with
  | true =>
      have hdx := denotes_value hfinite
      have hr := (denotes_zero.le_iff hdx).mp hx
      have hzero : 0 ≤ x + 0 := rounds_zero.le (hdx.add denotes_zero) (by rwa [add_zero])
      exact le_trans hzero ((roundsMonotone_add_left hdx).le hy)
  | false =>
      obtain rfl := eq_infinity_of_le hx denotes_zero.isFinite_eq hfinite
      cases hfinite' : y.isFinite with
      | true =>
          rw [Binary.add_comm, add_infinity hfinite']
          exact hx
      | false =>
          obtain rfl := eq_infinity_of_le hy denotes_zero.isFinite_eq hfinite'
          exact hx

theorem nonneg_foldl_add (htotal : 0 ≤ total) (hxs : ∀ x ∈ xs, 0 ≤ x) :
    0 ≤ xs.foldl (· + ·) total := by
  induction xs generalizing total with
  | nil => exact htotal
  | cons x rest ih =>
      exact ih (nonneg_add htotal (hxs x List.mem_cons_self))
        fun y hy => hxs y (List.mem_cons_of_mem x hy)

/-- Such a sum is no NaN, even if it overflows. -/
theorem nonneg_sum (hxs : ∀ x ∈ xs, 0 ≤ x) : 0 ≤ sum xs :=
  nonneg_foldl_add (le_self (isNaN_of_isFinite denotes_zero.isFinite_eq)) hxs

/-! ## The error of a sum -/

/-- How far one rounding is off below `2 ^ e`. -/
def roundingUnit (f : Format) (e : Nat) : ℚ := 2 ^ e / 2 ^ (f.fractionBits + 2)

theorem roundingUnit_double (e : Nat) : roundingUnit .double e = 2 ^ e / 2 ^ 54 := rfl

theorem roundingUnit_nonneg (e : Nat) : 0 ≤ roundingUnit f e := by
  unfold roundingUnit
  positivity

/-- A result below `2 ^ e` is off by one unit there. -/
theorem Rounds.exists_denotes_near {e : Nat} (h : x.Rounds r) (hplaces : f.fractionBits < f.places)
    (hlimit : (2 : ℚ) ^ e < f.limit) (hr : |r| ≤ 2 ^ e) :
    ∃ s, x.Denotes s ∧ |s - r| ≤ roundingUnit f e := by
  have hsmall := Format.abs_nearest_le (f.representable_two_pow e) hr
  exact ⟨_, h.denotes (hsmall.trans_lt hlimit), Format.nearest_error_le_two_pow hplaces hr⟩

/-- **Every term adds one unit of error**, as long as all that is added up has room below
`2 ^ e`. -/
theorem exists_denotes_foldl_add {e : Nat} (hplaces : f.fractionBits < f.places)
    (hlimit : (2 : ℚ) ^ e < f.limit) (hxs : ∀ x ∈ xs, x.isFinite = true) {s : ℚ}
    (htotal : total.Denotes s)
    (hroom : |s| + (xs.map fun x => |x.value|).sum + xs.length * roundingUnit f e ≤ 2 ^ e) :
    ∃ s', (xs.foldl (· + ·) total).Denotes s' ∧
      |s' - (s + (xs.map value).sum)| ≤ xs.length * roundingUnit f e := by
  induction xs generalizing total s with
  | nil =>
      refine ⟨s, htotal, ?_⟩
      simp
  | cons x rest ih =>
      have hx := denotes_value (hxs x List.mem_cons_self)
      have hunit := roundingUnit_nonneg (f := f) e
      rw [List.map_cons, List.sum_cons, List.length_cons, Nat.cast_succ] at hroom
      have hrest : 0 ≤ (rest.map fun x => |x.value|).sum := by
        refine List.sum_nonneg ?_
        intro v hv
        obtain ⟨y, -, rfl⟩ := List.mem_map.mp hv
        exact abs_nonneg _
      have hlength : 0 ≤ (rest.length : ℚ) * roundingUnit f e := by positivity
      have hsum := abs_add_le s x.value
      obtain ⟨s₁, hs₁, herror⟩ := (htotal.add hx).exists_denotes_near hplaces hlimit (by linarith)
      have hgrowth := abs_sub_abs_le_abs_sub s₁ (s + x.value)
      obtain ⟨s', hs', hclose⟩ := ih (fun y hy => hxs y (List.mem_cons_of_mem x hy)) hs₁
        (by linarith)
      refine ⟨s', hs', ?_⟩
      rw [List.map_cons, List.sum_cons, List.length_cons, Nat.cast_succ]
      have hsplit : s' - (s + (x.value + (rest.map value).sum)) =
          (s' - (s₁ + (rest.map value).sum)) + (s₁ - (s + x.value)) := by ring
      have htriangle := abs_add_le (s' - (s₁ + (rest.map value).sum)) (s₁ - (s + x.value))
      rw [hsplit]
      linarith

/-- The mean of equal terms is off by two units. -/
theorem exists_denotes_mean_replicate {e n : Nat} (hplaces : f.fractionBits < f.places)
    (hlimit : (2 : ℚ) ^ e < f.limit) (hn : 0 < n) (hlength : (ofNat n : Binary f).Denotes n)
    (hx : x.Denotes r) (hroom : n * |r| + n * roundingUnit f e ≤ 2 ^ e) :
    ∃ s, (mean (List.replicate n x)).Denotes s ∧ |s - r| ≤ 2 * roundingUnit f e := by
  have hcount : (0 : ℚ) < n := by exact_mod_cast hn
  have hone : (1 : ℚ) ≤ n := by exact_mod_cast hn
  have hunit := roundingUnit_nonneg (f := f) e
  have hfinite : ∀ y ∈ List.replicate n x, y.isFinite = true := by
    intro y hy
    rw [List.eq_of_mem_replicate hy]
    exact hx.isFinite_eq
  obtain ⟨s, hs, hclose⟩ := exists_denotes_foldl_add hplaces hlimit hfinite denotes_zero (by
    rw [List.map_replicate, List.sum_replicate, List.length_replicate, hx.value_eq, abs_zero,
      zero_add, nsmul_eq_mul]
    exact hroom)
  rw [List.map_replicate, List.sum_replicate, List.length_replicate, hx.value_eq, zero_add,
    nsmul_eq_mul] at hclose
  -- the quotient is as close to a single term as the sum is to all of them, term for term
  have hquotient : |s / n - r| ≤ roundingUnit f e := by
    rw [div_sub' hcount.ne', abs_div, abs_of_pos hcount, div_le_iff₀ hcount,
      mul_comm (roundingUnit f e)]
    exact hclose
  have hsize : |s / n| ≤ 2 ^ e := by
    have hgrowth := abs_sub_abs_le_abs_sub (s / n) r
    have hmore : |r| + roundingUnit f e ≤ n * (|r| + roundingUnit f e) :=
      le_mul_of_one_le_left (by positivity) hone
    linarith
  have hmean : (mean (List.replicate n x)).Rounds (s / n) := by
    unfold mean
    rw [List.length_replicate]
    exact hs.div hlength hcount.ne'
  obtain ⟨m, hm, herror⟩ := hmean.exists_denotes_near hplaces hlimit hsize
  refine ⟨m, hm, ?_⟩
  have htriangle := abs_sub_le m (s / n) r
  linarith

end Binary

end RoastTelemetry
