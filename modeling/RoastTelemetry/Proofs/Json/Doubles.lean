import RoastTelemetry.Json.Record
import RoastTelemetry.Proofs.Binary.Codes

/-!
# What is read in double precision is finite

A significand of sixty-four bits is finite and a power of ten that is applied in one step is finite
and at least one. So scaling down stays finite, and scaling up is refused where it would become
infinite. The single-precision reader narrows the result and has no such check: a number beyond its
range is read as infinite.
-/

namespace RoastTelemetry

open Json

namespace Binary

variable {f : Format} {x y : Binary f}

theorem isFinite_ofRatio {negative : Bool} {n d : Nat} (h : f.nearestCode n d < f.infinityCode) :
    (ofRatio negative n d : Binary f).isFinite = true := by
  unfold ofRatio
  rw [dif_pos h]
  rfl

theorem isFinite_or_isInfinite_ofRatio (negative : Bool) (n d : Nat) :
    (ofRatio negative n d : Binary f).isFinite = true ∨
      (ofRatio negative n d : Binary f).isInfinite = true := by
  unfold ofRatio
  split
  · exact .inl rfl
  · exact .inr rfl

/-- Whether a value is finite and at least one in magnitude. -/
def reachesOne : Binary f → Bool
  | .finite _ code => decide (f.one ≤ f.units code)
  | _ => false

/-- A whole number is at least one, if one is and a larger number is finite. -/
theorem reachesOne_ofNat {n top : Nat} (hpos : 0 < n) (htop : n ≤ top)
    (hone : f.one ≤ f.units (f.nearestCode (1 * f.one) 1))
    (hfinite : f.nearestCode (top * f.one) 1 < f.infinityCode) :
    (ofNat n : Binary f).reachesOne = true := by
  have hlow : f.nearestCode (1 * f.one) 1 ≤ f.nearestCode (n * f.one) 1 :=
    Format.nearestCode_mono_left Nat.one_pos (Nat.mul_le_mul_right _ hpos)
  have hhigh : f.nearestCode (n * f.one) 1 ≤ f.nearestCode (top * f.one) 1 :=
    Format.nearestCode_mono_left Nat.one_pos (Nat.mul_le_mul_right _ htop)
  unfold ofNat ofRatio
  rw [dif_pos (Nat.lt_of_le_of_lt hhigh hfinite)]
  exact decide_eq_true (Nat.le_trans hone (f.units_strictMono.monotone hlow))

/-- Division by what is at least one does not leave the finite values. -/
theorem isFinite_div (hx : x.isFinite = true) (hy : y.reachesOne = true) :
    (x / y).isFinite = true := by
  cases x with
  | nan => cases hx
  | infinity a => cases hx
  | finite a cx =>
      cases y with
      | nan => cases hy
      | infinity b => cases hy
      | finite b cy =>
          have hone : f.one ≤ f.units cy := of_decide_eq_true hy
          have hpos : 0 < f.units cy := Nat.lt_of_lt_of_le f.one_pos hone
          have hne : cy.val ≠ 0 := by
            intro h
            rw [h, Format.units_zero] at hpos
            exact Nat.lt_irrefl 0 hpos
          have hquotient : (finite a cx : Binary f) / finite b cy =
              if cy.val = 0 then if cx.val = 0 then nan else infinity (a ^^ b)
              else ofRatio (a ^^ b) (f.units cx * f.one) (f.units cy) := rfl
          have hle : f.nearestCode (f.units cx * f.one) (f.units cy) ≤
              f.nearestCode (f.units cx * 1) 1 := by
            refine Format.nearestCode_mono hpos Nat.one_pos ?_
            rw [Nat.mul_one, Nat.mul_one]
            exact Nat.mul_le_mul_left _ hone
          rw [Format.nearestCode_units Nat.one_pos] at hle
          rw [hquotient, if_neg hne]
          exact isFinite_ofRatio (Nat.lt_of_le_of_lt hle cx.isLt)

/-- A product of finite values is finite or too large. -/
theorem isFinite_or_isInfinite_mul (hx : x.isFinite = true) (hy : y.isFinite = true) :
    (x * y).isFinite = true ∨ (x * y).isInfinite = true := by
  cases x with
  | nan => cases hx
  | infinity a => cases hx
  | finite a cx =>
      cases y with
      | nan => cases hy
      | infinity b => cases hy
      | finite b cy => exact isFinite_or_isInfinite_ofRatio _ _ _

theorem isFinite_neg (hx : x.isFinite = true) : (-x).isFinite = true := by
  cases x with
  | nan => cases hx
  | infinity a => cases hx
  | finite a cx => rfl

end Binary

namespace Json.Number

theorem reachesOne_powerOfTen {k : Nat} (hk : k ≤ maxPowerOfTen) :
    (powerOfTen k).reachesOne = true := by
  have hone : Format.double.one ≤
      Format.double.units (Format.double.nearestCode (1 * Format.double.one) 1) := by
    decide +kernel
  have htop : Format.double.nearestCode (Nat.pow 10 maxPowerOfTen * Format.double.one) 1 <
      Format.double.infinityCode := by decide +kernel
  have hpow : ∀ top, k ≤ top → Nat.pow 10 k ≤ Nat.pow 10 top :=
    fun _ h => Nat.pow_le_pow_right (by decide) h
  exact Binary.reachesOne_ofNat (Nat.pow_pos (by decide)) (hpow _ hk) hone htop

theorem isFinite_powerOfTen {k : Nat} (hk : k ≤ maxPowerOfTen) :
    (powerOfTen k).isFinite = true := by
  have h := reachesOne_powerOfTen hk
  cases hp : powerOfTen k with
  | nan => rw [hp] at h; cases h
  | infinity a => rw [hp] at h; cases h
  | finite a code => rfl

theorem isFinite_significand {n : Nat} (hn : n ≤ maxSignificand) :
    (Binary.ofNat n : Double).isFinite = true := by
  have hmax : Format.double.nearestCode (maxSignificand * Format.double.one) 1 <
      Format.double.infinityCode := by decide +kernel
  refine Binary.isFinite_ofRatio (Nat.lt_of_le_of_lt ?_ hmax)
  exact Format.nearestCode_mono_left Nat.one_pos (Nat.mul_le_mul_right _ hn)

theorem absorb_le {n : Nat} (hn : n ≤ maxSignificand) (digits : List Digit) :
    (absorb n digits).1 ≤ maxSignificand := by
  induction digits generalizing n with
  | nil => exact hn
  | cons d rest ih =>
      unfold absorb
      split
      · exact ih ‹_›
      · exact hn

/-- What is left after scaling is finite. -/
theorem isFinite_of_scale? {x y : Double} {exponent : Int} (hx : x.isFinite = true)
    (h : scale? x exponent = some y) : y.isFinite = true := by
  fun_induction scale? x exponent with
  | case1 x exponent hsmall hup product hinfinite => cases h
  | case2 x exponent hsmall hup product hfinite =>
      obtain rfl := Option.some.inj h
      exact (Binary.isFinite_or_isInfinite_mul hx (isFinite_powerOfTen hsmall)).resolve_right
        hfinite
  | case3 x exponent hsmall hdown =>
      obtain rfl := Option.some.inj h
      exact Binary.isFinite_div hx (reachesOne_powerOfTen hsmall)
  | case4 x exponent hlarge hzero =>
      obtain rfl := Option.some.inj h
      exact hx
  | case5 x exponent hlarge hne hup => cases h
  | case6 x exponent hlarge hne hdown ih =>
      exact ih (Binary.isFinite_div hx (reachesOne_powerOfTen (Nat.le_refl _))) h

/-- **A number is read as a finite value, or not at all.** -/
theorem isFinite_of_toDouble? {n : Number} {x : Double} (h : n.toDouble? = some x) :
    x.isFinite = true := by
  unfold toDouble? at h
  obtain ⟨magnitude, hscale, rfl⟩ := Option.map_eq_some_iff.mp h
  have hwhole := absorb_le (Nat.zero_le _) (Digit.ofNat n.whole)
  have hmagnitude : magnitude.isFinite = true :=
    isFinite_of_scale? (isFinite_significand (absorb_le hwhole n.fraction)) hscale
  split
  · exact Binary.isFinite_neg hmagnitude
  · exact hmagnitude

end Json.Number

theorem Json.Value.isFinite_of_double? {v : Value} {x : Double} (h : v.double? = some x) :
    x.isFinite = true := by
  cases v with
  | number n => exact Number.isFinite_of_toDouble? h
  | null | bool b | string s | array items | object members => cases h

end RoastTelemetry
