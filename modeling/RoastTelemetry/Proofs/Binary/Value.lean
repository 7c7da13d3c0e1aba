import RoastTelemetry.Binary.Order
import RoastTelemetry.Proofs.Binary.Nearest

/-!
# What a floating-point value denotes

A finite value denotes a rational number; both zeros denote the same one. Every operation is
described by one statement: if the operands denote numbers, then the result rounds the exact
result once. So it denotes the rounded exact result if that is below the limit, and is an infinity
if it is not. The sign of a zero never enters.

Comparison agrees with its exact counterpart outright.
-/

namespace RoastTelemetry

namespace Binary

variable {f : Format}

/-- The number that a finite value stands for; zero for the others. -/
def value : Binary f → ℚ
  | .finite negative code => signed negative (f.units code) / f.one
  | _ => 0

variable {x y : Binary f} {r s : ℚ}

/-- A finite value that stands for `r`. -/
structure Denotes (x : Binary f) (r : ℚ) : Prop where
  /-- It is a number. -/
  isFinite_eq : x.isFinite = true
  /-- That number. -/
  value_eq : x.value = r

/-- One and the same number, although zeros may differ in sign. -/
def SameNumber (x y : Binary f) : Prop := ∃ r, x.Denotes r ∧ y.Denotes r

theorem denotes_value (h : x.isFinite = true) : x.Denotes x.value := ⟨h, rfl⟩

theorem Denotes.unique (hr : x.Denotes r) (hs : x.Denotes s) : r = s :=
  hr.value_eq.symm.trans hs.value_eq

theorem Denotes.exists_finite (h : x.Denotes r) :
    ∃ negative code, x = .finite negative code ∧ r = signed negative (f.units code) / f.one := by
  obtain ⟨hfin, hval⟩ := h
  cases x with
  | nan => simp [isFinite] at hfin
  | infinity negative => simp [isFinite] at hfin
  | finite negative code => exact ⟨negative, code, rfl, hval.symm⟩

theorem denotes_finite (negative : Bool) (code : Fin f.infinityCode) :
    (finite negative code : Binary f).Denotes (signed negative (f.units code) / f.one) :=
  ⟨rfl, rfl⟩

theorem signed_cast (negative : Bool) (n : Nat) :
    ((signed negative n : Int) : ℚ) = if negative then -(n : ℚ) else n := by
  unfold signed
  split
  · rw [Int.cast_neg, Int.cast_natCast]
  · exact Int.cast_natCast n

theorem signed_xor_mul (a b : Bool) (m n : Nat) :
    ((signed (a ^^ b) (m * n) : Int) : ℚ) = signed a m * signed b n := by
  simp only [signed_cast]
  cases a <;> cases b <;> simp

theorem abs_signed (negative : Bool) (n : Nat) : |((signed negative n : Int) : ℚ)| = n := by
  rw [signed_cast]
  split
  · rw [abs_neg, Nat.abs_cast]
  · exact Nat.abs_cast n

theorem Denotes.abs_eq_magnitude (h : x.Denotes r) :
    ∃ code : Fin f.infinityCode, |r| = f.magnitude code := by
  obtain ⟨negative, code, rfl, hr⟩ := h.exists_finite
  refine ⟨code, ?_⟩
  have hone := f.one_cast_pos
  rw [hr, abs_div, abs_signed, abs_of_pos hone]
  rfl

theorem Denotes.representable (h : x.Denotes r) : f.Representable r := by
  obtain ⟨code, hcode⟩ := h.abs_eq_magnitude
  exact ⟨code, hcode⟩

theorem Denotes.abs_lt_limit (h : x.Denotes r) : |r| < f.limit := by
  obtain ⟨code, hcode⟩ := h.abs_eq_magnitude
  rw [hcode]
  exact f.magnitude_strictMono code.isLt

/-- Two values of the same sign that stand for one number are the same. -/
theorem finite_injective {negative : Bool} {code code' : Fin f.infinityCode}
    (h : (finite negative code : Binary f).value = (finite negative code' : Binary f).value) :
    code = code' := by
  have hone := f.one_cast_pos
  unfold value at h
  rw [div_left_inj' hone.ne', signed_cast, signed_cast] at h
  have hunits : (f.units code : ℚ) = f.units code' := by cases negative <;> simpa using h
  exact Fin.ext (f.units_strictMono.injective (by exact_mod_cast hunits))

/-- The two zeros stand for zero, and nothing else does. -/
theorem finite_denotes_zero_iff {negative : Bool} {code : Fin f.infinityCode} :
    (finite negative code : Binary f).Denotes 0 ↔ code.val = 0 := by
  have hzero : (finite negative ⟨0, f.infinityCode_pos⟩ : Binary f).value = 0 := by
    have hvalue : (finite negative ⟨0, f.infinityCode_pos⟩ : Binary f).value =
        signed negative (f.units 0) / f.one := rfl
    rw [hvalue, Format.units_zero, signed_cast]
    simp
  constructor
  · intro h
    rw [finite_injective (h.value_eq.trans hzero.symm)]
  · intro h
    obtain rfl : code = ⟨0, f.infinityCode_pos⟩ := Fin.ext h
    exact ⟨rfl, hzero⟩

/-! ## The rounded exact result -/

/-- Rounding a ratio of units with a sign. -/
theorem nearest_signed (negative : Bool) {n d : Nat} (hd : 0 < d) :
    f.nearest (signed negative n / (d * f.one)) =
      signed negative (f.units (f.nearestCode n d)) / f.one := by
  have hone := f.one_cast_pos
  have hd' : (0 : ℚ) < d := by exact_mod_cast hd
  have hnonneg : (0 : ℚ) ≤ n / (d * f.one) := by positivity
  have hcode : f.codeOf ((n : ℚ) / (d * f.one)) = f.nearestCode n d :=
    Format.codeOf_eq hd (abs_of_nonneg hnonneg)
  have hpos : f.nearest ((n : ℚ) / (d * f.one)) = f.units (f.nearestCode n d) / f.one := by
    rw [Format.nearest_of_nonneg hnonneg, hcode]
    rfl
  rw [signed_cast, signed_cast]
  cases negative with
  | false => exact hpos
  | true =>
      simp only [if_true]
      rw [neg_div, neg_div, Format.nearest_neg, hpos]

/-- The outcome of rounding `r` once: a value, or an infinity where that does not fit. -/
def Rounds (x : Binary f) (r : ℚ) : Prop :=
  ∃ (negative : Bool) (n d : Nat),
    0 < d ∧ r = signed negative n / (d * f.one) ∧ x = ofRatio negative n d

theorem rounds_ofRatio (negative : Bool) {n d : Nat} (hd : 0 < d)
    (hr : r = signed negative n / (d * f.one)) : (ofRatio negative n d : Binary f).Rounds r :=
  ⟨negative, n, d, hd, hr, rfl⟩

/-- What decides is the code, and that is the one of the rounded number. -/
theorem nearestCode_lt_iff {negative : Bool} {n d : Nat} (hd : 0 < d)
    (hr : r = signed negative n / (d * f.one)) :
    f.nearestCode n d < f.infinityCode ↔ |f.nearest r| < f.limit := by
  have habs : |r| = n / (d * f.one) := by
    have hone := f.one_cast_pos
    rw [hr, abs_div, abs_signed, abs_of_nonneg (by positivity : (0 : ℚ) ≤ d * f.one)]
  rw [← Format.codeOf_eq hd habs]
  exact f.codeOf_lt_infinityCode_iff r

theorem Rounds.denotes (h : x.Rounds r) (hlimit : |f.nearest r| < f.limit) :
    x.Denotes (f.nearest r) := by
  obtain ⟨negative, n, d, hd, hr, rfl⟩ := h
  have hcode := (nearestCode_lt_iff hd hr).mpr hlimit
  unfold ofRatio
  rw [dif_pos hcode, hr, nearest_signed negative hd]
  exact denotes_finite _ _

/-- A finite outcome is the rounded number, whatever is known of its size. -/
theorem Rounds.denotes_of_isFinite (h : x.Rounds r) (hfin : x.isFinite = true) :
    x.Denotes (f.nearest r) := by
  refine h.denotes ?_
  obtain ⟨negative, n, d, hd, hr, rfl⟩ := h
  unfold ofRatio at hfin
  split at hfin
  · rename_i hcode
    exact (nearestCode_lt_iff hd hr).mp hcode
  · exact Bool.noConfusion hfin

/-- Nothing is lost where the exact result has a code. -/
theorem Rounds.denotes_exact (h : x.Rounds r) (hrep : f.Representable r) (hlimit : |r| < f.limit) :
    x.Denotes r := by
  have hnearest := Format.nearest_of_representable hrep
  have hx := h.denotes (by rwa [hnearest])
  rwa [hnearest] at hx

/-! ## Operations -/

theorem Denotes.neg (h : x.Denotes r) : (-x).Denotes (-r) := by
  obtain ⟨a, code, rfl, rfl⟩ := h.exists_finite
  have hx : -(finite a code : Binary f) = finite (!a) code := rfl
  rw [hx]
  refine ⟨rfl, ?_⟩
  rw [value, signed_cast, signed_cast]
  cases a <;> simp [neg_div]

theorem Denotes.add (hx : x.Denotes r) (hy : y.Denotes s) : (x + y).Rounds (r + s) := by
  obtain ⟨a, cx, rfl, hr⟩ := hx.exists_finite
  obtain ⟨b, cy, rfl, hs⟩ := hy.exists_finite
  have hsum : r + s = ((signed a (f.units cx) + signed b (f.units cy) : Int) : ℚ) / f.one := by
    rw [hr, hs, Int.cast_add, add_div]
  have hadd : (finite a cx : Binary f) + finite b cy =
      ofRatio (if signed a (f.units cx) + signed b (f.units cy) = 0 then a && b
          else decide (signed a (f.units cx) + signed b (f.units cy) < 0))
        (signed a (f.units cx) + signed b (f.units cy)).natAbs 1 := rfl
  rw [hadd]
  -- the sign is the one of the sum, but for a zero, where it does not count
  generalize signed a (f.units cx) + signed b (f.units cy) = sum at hsum
  refine rounds_ofRatio _ Nat.one_pos ?_
  rw [hsum, Nat.cast_one, one_mul]
  congr 1
  rw [signed_cast, Nat.cast_natAbs]
  rcases lt_trichotomy sum 0 with hneg | hzero | hpos
  · simp [hneg, hneg.ne, abs_of_neg hneg]
  · simp [hzero]
  · simp [hpos.not_gt, hpos.ne', abs_of_pos hpos]

theorem Denotes.sub (hx : x.Denotes r) (hy : y.Denotes s) : (x - y).Rounds (r - s) := by
  have hsub : x - y = x + -y := rfl
  rw [hsub, sub_eq_add_neg]
  exact hx.add hy.neg

theorem Denotes.mul (hx : x.Denotes r) (hy : y.Denotes s) : (x * y).Rounds (r * s) := by
  obtain ⟨a, cx, rfl, hr⟩ := hx.exists_finite
  obtain ⟨b, cy, rfl, hs⟩ := hy.exists_finite
  have hmul : (finite a cx : Binary f) * finite b cy =
      ofRatio (a ^^ b) (f.units cx * f.units cy) f.one := rfl
  rw [hmul]
  refine rounds_ofRatio _ f.one_pos ?_
  rw [hr, hs, signed_xor_mul, div_mul_div_comm]

theorem Denotes.div (hx : x.Denotes r) (hy : y.Denotes s) (hs0 : s ≠ 0) :
    (x / y).Rounds (r / s) := by
  obtain ⟨a, cx, rfl, hr⟩ := hx.exists_finite
  obtain ⟨b, cy, rfl, hs⟩ := hy.exists_finite
  have hne : cy.val ≠ 0 := by
    intro h0
    apply hs0
    rw [hs, h0, Format.units_zero, signed_cast]
    simp
  have hpos : 0 < f.units cy := by
    rw [← f.units_zero]
    exact f.units_strictMono (Nat.pos_of_ne_zero hne)
  have hdiv : (finite a cx : Binary f) / finite b cy =
      ofRatio (a ^^ b) (f.units cx * f.one) (f.units cy) := if_neg hne
  rw [hdiv]
  refine rounds_ofRatio _ hpos ?_
  have hone := f.one_cast_pos
  have hy0 : (0 : ℚ) < f.units cy := by exact_mod_cast hpos
  rw [hr, hs]
  simp only [signed_cast]
  push_cast
  cases a <;> cases b <;> simp <;> field_simp

/-- Changing the format rounds once. -/
theorem Denotes.convert (hx : x.Denotes r) (g : Format) : (x.convert g).Rounds r := by
  obtain ⟨a, cx, rfl, hr⟩ := hx.exists_finite
  have hone := f.one_cast_pos
  have hone' := g.one_cast_pos
  refine rounds_ofRatio a f.one_pos ?_
  rw [hr]
  simp only [signed_cast]
  push_cast
  cases a <;> simp <;> field_simp

theorem isFinite_of_convert {g : Format} (h : (x.convert g).isFinite = true) :
    x.isFinite = true := by
  cases x with
  | nan => exact h
  | infinity negative => exact h
  | finite negative code => rfl

theorem denotes_ofNat {n : Nat} (hn : n ≤ 2 * 2 ^ f.fractionBits) (hlimit : (n : ℚ) < f.limit) :
    (ofNat n : Binary f).Denotes n := by
  have hrep : f.Representable ((n : ℤ) : ℚ) := f.representable_intCast (by simpa using hn)
  rw [Int.cast_natCast] at hrep
  have hone := f.one_cast_pos
  have h : (ofNat n : Binary f).Rounds n := by
    refine rounds_ofRatio false Nat.one_pos ?_
    rw [signed_cast]
    push_cast
    field_simp
  exact h.denotes_exact hrep (by rwa [Nat.abs_cast])

theorem denotes_ofNat_double {n : Nat} (h : n ≤ 2 ^ 53) : (ofNat n : Double).Denotes n := by
  refine denotes_ofNat h (lt_of_le_of_lt ?_ (Format.two_pow_lt_limit_double (k := 53) ?_))
  · exact_mod_cast h
  · decide

/-- A decimal fraction is rounded once. -/
theorem rounds_ofScientific (significand places : Nat) :
    (OfScientific.ofScientific significand true places : Binary f).Rounds
      (significand / 10 ^ places) := by
  have hone := f.one_cast_pos
  have hdecimal : (OfScientific.ofScientific significand true places : Binary f) =
      ofDecimal false significand (-(places : Int)) := rfl
  rw [hdecimal]
  unfold ofDecimal
  split
  · rename_i hplaces
    obtain rfl : places = 0 := by omega
    refine rounds_ofRatio false Nat.one_pos ?_
    have hcount : significand * Nat.pow 10 (-((0 : Nat) : Int)).toNat * f.one =
        significand * f.one := congrArg (· * f.one) (Nat.mul_one significand)
    rw [hcount, signed_cast, if_neg Bool.false_ne_true]
    push_cast
    field_simp
  · rw [Int.natAbs_neg, Int.natAbs_natCast, Nat.pow_eq]
    refine rounds_ofRatio false (Nat.pow_pos (by norm_num)) ?_
    rw [signed_cast, if_neg Bool.false_ne_true]
    push_cast
    field_simp

theorem denotes_zero : (0 : Binary f).Denotes 0 := by
  have h : (0 : Binary f).Denotes ((0 : Nat) : ℚ) :=
    denotes_ofNat (Nat.zero_le _) (by rw [Nat.cast_zero]; exact f.limit_pos)
  rwa [Nat.cast_zero] at h

theorem denotes_one : (1 : Binary f).Denotes 1 := by
  have hlimit : (1 : ℚ) < f.limit := by
    rw [Format.limit_eq]
    exact one_lt_pow₀ (by norm_num) (Nat.two_pow_pos _).ne'
  have h : (1 : Binary f).Denotes ((1 : Nat) : ℚ) := by
    refine denotes_ofNat ?_ (by rwa [Nat.cast_one])
    calc 1 ≤ 2 ^ f.fractionBits := Nat.one_le_two_pow
      _ ≤ 2 * 2 ^ f.fractionBits := Nat.le_mul_of_pos_left _ (by decide)
  rwa [Nat.cast_one] at h

theorem ofRatio_zero (negative : Bool) {d : Nat} (hd : 0 < d) :
    (ofRatio negative 0 d : Binary f) = finite negative ⟨0, f.infinityCode_pos⟩ := by
  have hcode := f.nearestCode_units hd 0
  rw [Format.units_zero, Nat.zero_mul] at hcode
  unfold ofRatio
  rw [dif_pos (hcode.trans_lt f.infinityCode_pos)]
  congr

theorem zero_eq : (0 : Binary f) = finite false ⟨0, f.infinityCode_pos⟩ := by
  have h : (0 : Binary f) = ofRatio false (0 * f.one) 1 := rfl
  rw [h, Nat.zero_mul, ofRatio_zero false Nat.one_pos]

/-- The mean of what cancels is zero, however many there are. -/
theorem zero_div_ofNat {n : Nat} (hn : 0 < n) : (0 : Binary f) / ofNat n = 0 := by
  have hinfinity : (0 : Binary f) / infinity false = ofRatio false 0 1 := by
    rw [zero_eq]
    rfl
  have hpos : 0 < f.nearestCode (n * f.one) 1 := by
    have hunit : f.units 1 = 1 := by
      rw [Format.units_eq_ite, if_pos (Nat.one_lt_two_pow f.fractionBits_pos.ne')]
    have hcode := f.nearestCode_units Nat.one_pos 1
    rw [hunit] at hcode
    have hmono := f.nearestCode_mono_left Nat.one_pos (Nat.mul_pos hn f.one_pos)
    exact Nat.lt_of_lt_of_le (by rw [hcode]; exact Nat.one_pos) hmono
  have hfinite : ∀ code : Fin f.infinityCode, code.val ≠ 0 →
      (0 : Binary f) / finite false code = 0 := by
    intro code hcode
    have hdiv : (0 : Binary f) / finite false code =
        if code.val = 0 then nan else ofRatio false (f.units 0 * f.one) (f.units code) := by
      rw [zero_eq]
      rfl
    rw [hdiv, if_neg hcode, Format.units_zero, Nat.zero_mul, zero_eq]
    refine ofRatio_zero false ?_
    rw [← Format.units_zero (f := f)]
    exact f.units_strictMono (Nat.pos_of_ne_zero hcode)
  unfold ofNat ofRatio
  split
  · exact hfinite _ hpos.ne'
  · rw [hinfinity, ofRatio_zero false Nat.one_pos, zero_eq]

/-! ## Sums without a number -/

theorem add_nan (x : Binary f) : x + nan = nan := by
  cases x with
  | nan => rfl
  | infinity negative => rfl
  | finite negative code => rfl

theorem add_infinity (h : x.isFinite = true) (negative : Bool) :
    x + infinity negative = infinity negative := by
  obtain ⟨a, code, rfl, -⟩ := (denotes_value h).exists_finite
  rfl

theorem infinity_sub (h : x.isFinite = true) (negative : Bool) :
    infinity negative - x = infinity negative := by
  obtain ⟨a, code, rfl, -⟩ := (denotes_value h).exists_finite
  rfl

/-- Opposite infinities cancel to no number. -/
theorem infinity_add_infinity_not (negative : Bool) :
    (infinity negative : Binary f) + infinity (!negative) = nan := by
  cases negative with
  | false => rfl
  | true => rfl

/-! ## Zeros of either sign -/

/-- The same value, or zeros that may differ in sign. -/
def Alike (x y : Binary f) : Prop := x = y ∨ x.Denotes 0 ∧ y.Denotes 0

@[refl]
theorem Alike.refl (x : Binary f) : x.Alike x := .inl rfl

theorem Alike.denotes (h : x.Alike y) (hx : x.Denotes r) : y.Denotes r := by
  rcases h with rfl | ⟨hx0, hy0⟩
  · exact hx
  · rwa [hx.unique hx0]

theorem Alike.symm (h : x.Alike y) : y.Alike x := by
  rcases h with rfl | ⟨hx0, hy0⟩
  · exact .inl rfl
  · exact .inr ⟨hy0, hx0⟩

theorem Alike.trans {z : Binary f} (h : x.Alike y) (h' : y.Alike z) : x.Alike z := by
  rcases h with rfl | ⟨hx0, hy0⟩
  · exact h'
  · exact .inr ⟨hx0, h'.denotes hy0⟩

/-- Only zero has two values. -/
theorem Denotes.alike (hx : x.Denotes r) (hy : y.Denotes r) : x.Alike y := by
  rcases eq_or_ne r 0 with h0 | h0
  · rw [h0] at hx hy
    exact .inr ⟨hx, hy⟩
  left
  obtain ⟨a, cx, rfl, hr⟩ := hx.exists_finite
  obtain ⟨b, cy, rfl, hs⟩ := hy.exists_finite
  have hsign : a = b := by
    have hone := f.one_cast_pos
    have hcx : (0 : ℚ) ≤ f.units cx / f.one := by positivity
    have hcy : (0 : ℚ) ≤ f.units cy / f.one := by positivity
    rw [signed_cast] at hr hs
    by_contra hne
    apply h0
    cases a <;> cases b <;> simp [neg_div] at hr hs hne <;> linarith
  subst hsign
  rw [finite_injective (hx.value_eq.trans hy.value_eq.symm)]

/-- What brings zeros to zeros does not tell values apart by the sign of a zero. -/
theorem Alike.map {g : Format} (h : x.Alike y) (op : Binary f → Binary g)
    (hop : ∀ z : Binary f, z.Denotes 0 → (op z).Denotes 0) : (op x).Alike (op y) := by
  rcases h with rfl | ⟨hx0, hy0⟩
  · exact .inl rfl
  · exact .inr ⟨hop x hx0, hop y hy0⟩

theorem Alike.add_right (h : x.Alike y) (z : Binary f) : (x + z).Alike (y + z) := by
  rcases h with rfl | ⟨hx0, hy0⟩
  · exact .inl rfl
  cases z with
  | nan =>
      obtain ⟨a, cx, rfl, -⟩ := hx0.exists_finite
      obtain ⟨b, cy, rfl, -⟩ := hy0.exists_finite
      exact .inl rfl
  | infinity negative =>
      obtain ⟨a, cx, rfl, -⟩ := hx0.exists_finite
      obtain ⟨b, cy, rfl, -⟩ := hy0.exists_finite
      exact .inl rfl
  | finite negative code =>
      -- a zero adds nothing, so both sums are the number added
      have hz := denotes_finite negative code
      have hx := (hx0.add hz).denotes_exact (by rw [zero_add]; exact hz.representable)
        (by rw [zero_add]; exact hz.abs_lt_limit)
      have hy := (hy0.add hz).denotes_exact (by rw [zero_add]; exact hz.representable)
        (by rw [zero_add]; exact hz.abs_lt_limit)
      exact hx.alike hy

/-- Which of two terms comes first does not matter, not even for the sign of a zero. -/
protected theorem add_comm (x y : Binary f) : x + y = y + x := by
  cases x with
  | nan =>
      rw [add_nan]
      rfl
  | infinity a =>
      cases y with
      | nan => rfl
      | infinity b =>
          have h : ∀ a b : Bool, (infinity a : Binary f) + infinity b =
              if a = b then infinity a else nan := fun _ _ => rfl
          rw [h, h]
          cases a <;> cases b <;> rfl
      | finite b cy => rfl
  | finite a cx =>
      cases y with
      | nan => rfl
      | infinity b => rfl
      | finite b cy =>
          have h : ∀ (a b : Bool) (cx cy : Fin f.infinityCode),
              (finite a cx : Binary f) + finite b cy =
                let sum := signed a (f.units cx) + signed b (f.units cy)
                ofRatio (if sum = 0 then a && b else decide (sum < 0)) sum.natAbs 1 :=
            fun _ _ _ _ => rfl
          rw [h, h, Int.add_comm, Bool.and_comm]

theorem Alike.add {x' y' : Binary f} (hx : x.Alike x') (hy : y.Alike y') :
    (x + y).Alike (x' + y') := by
  refine (hx.add_right y).trans ?_
  rw [Binary.add_comm x' y, Binary.add_comm x' y']
  exact hy.add_right x'

theorem Alike.sub {x' y' : Binary f} (hx : x.Alike x') (hy : y.Alike y') :
    (x - y).Alike (x' - y') := by
  refine hx.add (hy.map neg fun z hz => ?_)
  have hneg := hz.neg
  rwa [neg_zero] at hneg

/-! ## Order -/

theorem signed_lt_signed_iff (a b : Bool) (m n : Nat) :
    signed a m < signed b n ↔ signed a (f.units m) < signed b (f.units n) := by
  have hmn := f.units_strictMono.lt_iff_lt (a := m) (b := n)
  have hnm := f.units_strictMono.lt_iff_lt (a := n) (b := m)
  have hm := f.units_strictMono.lt_iff_lt (a := 0) (b := m)
  have hn := f.units_strictMono.lt_iff_lt (a := 0) (b := n)
  rw [f.units_zero] at hm hn
  unfold signed
  cases a <;> cases b <;> simp <;> omega

theorem Denotes.lt_iff (hx : x.Denotes r) (hy : y.Denotes s) : x < y ↔ r < s := by
  obtain ⟨a, cx, rfl, rfl⟩ := hx.exists_finite
  obtain ⟨b, cy, rfl, rfl⟩ := hy.exists_finite
  have hlt : (finite a cx : Binary f) < finite b cy ↔ signed a cx < signed b cy :=
    decide_eq_true_iff
  rw [hlt, signed_lt_signed_iff (f := f), div_lt_div_iff_of_pos_right f.one_cast_pos, Int.cast_lt]

theorem Denotes.le_iff (hx : x.Denotes r) (hy : y.Denotes s) : x ≤ y ↔ r ≤ s := by
  have hlt := hy.lt_iff hx
  obtain ⟨a, cx, rfl, hr⟩ := hx.exists_finite
  obtain ⟨b, cy, rfl, hs⟩ := hy.exists_finite
  have hle : (finite a cx : Binary f) ≤ finite b cy ↔ signed a cx ≤ signed b cy :=
    decide_eq_true_iff
  have hlt' : (finite b cy : Binary f) < finite a cx ↔ signed b cy < signed a cx :=
    decide_eq_true_iff
  rw [hle, ← not_lt, ← hlt', hlt, not_lt]

/-! ## Between single and double precision -/

/-- A small multiple of a number with a code has one in every format with bits to spare. -/
theorem representable_mul_of_le {g : Format} {j k : Nat} (hk : k ≤ 2 ^ j)
    (hbits : f.fractionBits + j ≤ g.fractionBits) (hplaces : f.places ≤ g.places)
    (h : f.Representable r) : g.Representable (k * r) := by
  obtain ⟨code, hcode⟩ := h
  obtain ⟨shift, m, hsplit, hs, hlt⟩ := f.exists_splits code
  have hmultiple : k * m ≤ 2 * 2 ^ g.fractionBits := by
    calc k * m ≤ 2 ^ j * (2 * 2 ^ f.fractionBits) := Nat.mul_le_mul hk hlt.le
      _ = 2 * 2 ^ (f.fractionBits + j) := by ring
      _ ≤ 2 * 2 ^ g.fractionBits := Nat.mul_le_mul_left 2 (Nat.pow_le_pow_right (by decide) hbits)
  obtain ⟨i, hi⟩ : ∃ i, g.places = f.places + i := ⟨g.places - f.places, by omega⟩
  obtain ⟨code', hcode'⟩ := g.exists_units_eq (shift + i) (k * m) hmultiple
  refine ⟨code', ?_⟩
  have hf : (0 : ℚ) < 2 ^ f.places := by positivity
  have hg : (0 : ℚ) < 2 ^ i := by positivity
  rw [abs_mul, Nat.abs_cast, hcode]
  unfold Format.magnitude
  rw [Format.one_eq, Format.one_eq, hsplit, hs.units_eq, hcode', hi, pow_add, pow_add]
  push_cast
  field_simp

/-- A number with a code has one in every format that is wider on both sides of the point. -/
theorem representable_of_le {g : Format} (hbits : f.fractionBits ≤ g.fractionBits)
    (hplaces : f.places ≤ g.places) (h : f.Representable r) : g.Representable r := by
  have hone := representable_mul_of_le (j := 0) (k := 1) le_rfl hbits hplaces h
  rwa [Nat.cast_one, one_mul] at hone

theorem Alike.convert (h : x.Alike y) (g : Format) : (x.convert g).Alike (y.convert g) := by
  refine h.map (fun z => z.convert g) fun z hz => ?_
  refine (hz.convert g).denotes_exact ⟨0, by simp⟩ ?_
  rw [abs_zero]
  exact g.limit_pos

/-- Widening changes nothing. -/
theorem Denotes.widen {x : Single} (hx : x.Denotes r) : x.widen.Denotes r := by
  have hrep : Format.double.Representable r :=
    representable_of_le (by decide) (by decide) hx.representable
  have hlimit : |r| < Format.double.limit := by
    have h := hx.abs_lt_limit
    rw [Format.limit_single] at h
    rw [Format.limit_double]
    exact h.trans (pow_lt_pow_right₀ (by norm_num) (by norm_num))
  exact (hx.convert .double).denotes_exact hrep hlimit

theorem ofRatio_eq_finite {a : Bool} {n d : Nat} (h : (ofRatio a n d : Binary f).isFinite = true) :
    ∃ code, (ofRatio a n d : Binary f) = finite a code := by
  unfold ofRatio at h ⊢
  split at h
  · rename_i hcode
    exact ⟨⟨_, hcode⟩, dif_pos hcode⟩
  · simp [isFinite] at h

/-- Widening and narrowing again gives the same value, zeros and NaN included. -/
theorem narrow_widen (x : Single) : x.widen.narrow = x := by
  cases x with
  | nan => rfl
  | infinity negative => rfl
  | finite a code =>
      have hx := denotes_finite a code (f := .single)
      have hw := hx.widen
      have hn : (finite a code : Single).widen.narrow.Denotes _ :=
        (hw.convert .single).denotes_exact hx.representable hx.abs_lt_limit
      obtain ⟨code', hcode'⟩ := ofRatio_eq_finite hw.isFinite_eq
      have hwide : (finite a code : Single).widen = finite a code' := hcode'
      rw [hwide] at hn ⊢
      obtain ⟨code'', hcode''⟩ := ofRatio_eq_finite hn.isFinite_eq
      have hnarrow : (finite a code' : Double).narrow = finite a code'' := hcode''
      rw [hnarrow] at hn ⊢
      rw [finite_injective (hn.value_eq.trans hx.value_eq.symm)]

end Binary

end RoastTelemetry
