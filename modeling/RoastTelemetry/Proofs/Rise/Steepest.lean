import RoastTelemetry.Proofs.Binary.Sums
import RoastTelemetry.Proofs.Rise.Windows

/-!
# Curves that are as steep as can be

For every window and either method there is a curve with two windows that both have the largest
finite rate, up or down. It has three different points, on a line through a middle one at zero.
Where least squares run over more points these are copies of the middle one, so both means are zero
and no sum has more than two terms. The largest coefficient is all ones and so a multiple of
fifteen, which makes the slope per second exact as well.
-/

namespace RoastTelemetry

open Binary

namespace Rise

/-- The largest finite rate with a sign. -/
def steepest (negative : Bool) : Single :=
  .finite negative ⟨Format.single.infinityCode - 1, by decide⟩

/-- Three points on a line of the steepest slope, at minus one, zero and one minute. -/
def early (negative : Bool) : TemperaturePoint := ⟨-60, steepest !negative⟩

def middle : TemperaturePoint := ⟨0, 0⟩

def late (negative : Bool) : TemperaturePoint := ⟨60, steepest negative⟩

variable {negative : Bool}

theorem differenceRate?_early (negative : Bool) :
    differenceRate? (early negative) middle = some (steepest negative).widen := by
  cases negative <;> decide +kernel

theorem differenceRate?_late (negative : Bool) :
    differenceRate? middle (late negative) = some (steepest negative).widen := by
  cases negative <;> decide +kernel

/-- A term that a sum from zero takes as it is: any but a negative zero. -/
def Plain (x : Double) : Prop := 0 + x = x

instance (x : Double) : Decidable (Plain x) := inferInstanceAs (Decidable (0 + x = x))

/--
A window with the early and the late point among copies of the middle one. A sum over it has two
terms where the middle one gives zero.
-/
structure Straddles (negative : Bool) (window : List TemperaturePoint) : Prop where
  two_le_length : 2 ≤ window.length
  sum_eq : ∀ {f : TemperaturePoint → Double},
    f middle = 0 ∧ Plain (f (early negative)) ∧ Plain (f (late negative)) →
      Binary.sum (window.map f) = f (early negative) + f (late negative)

theorem straddles_early_late (n : Nat) :
    Straddles negative (early negative :: (List.replicate n middle ++ [late negative])) := by
  refine ⟨by simp, ?_⟩
  rintro f ⟨hmiddle, hearly, -⟩
  have hsame : f (early negative) + 0 = f (early negative) := by
    rw [Binary.add_comm]
    exact hearly
  unfold Binary.sum
  rw [List.map_cons, List.map_append, List.map_replicate, List.foldl_cons, List.foldl_append,
    hearly, hmiddle, foldl_replicate hsame]
  rfl

theorem straddles_late_early (n : Nat) :
    Straddles negative (List.replicate n middle ++ [late negative, early negative]) := by
  refine ⟨by simp, ?_⟩
  rintro f ⟨hmiddle, -, hlate⟩
  have hzero : (0 : Double) + 0 = 0 := by decide +kernel
  unfold Binary.sum
  rw [List.map_append, List.map_replicate, List.foldl_append, hmiddle, foldl_replicate hzero,
    Binary.add_comm (f (early negative))]
  exact congrArg (· + f (early negative)) hlate

theorem Straddles.mean_eq_zero {window : List TemperaturePoint} (h : Straddles negative window)
    {f : TemperaturePoint → Double}
    (hf : f middle = 0 ∧ Plain (f (early negative)) ∧ Plain (f (late negative)))
    (hcancels : f (early negative) + f (late negative) = 0) : mean (window.map f) = 0 := by
  have hlength := h.two_le_length
  unfold mean
  rw [h.sum_eq hf, hcancels, zero_div_ofNat]
  rw [List.length_map]
  omega

theorem regressionRate?_of_straddles {window : List TemperaturePoint}
    (h : Straddles negative window) :
    regressionRate? window = some (steepest negative).widen := by
  have hlength := h.two_le_length
  have htime : mean (window.map (·.time)) = 0 :=
    h.mean_eq_zero (by cases negative <;> decide +kernel) (by cases negative <;> decide +kernel)
  have htemperature : mean (window.map (·.temperature.widen)) = 0 :=
    h.mean_eq_zero (by cases negative <;> decide +kernel) (by cases negative <;> decide +kernel)
  unfold regressionRate? slope?
  rw [if_neg (by omega), htime, htemperature]
  dsimp only
  rw [h.sum_eq (by cases negative <;> decide +kernel),
    h.sum_eq (by cases negative <;> decide +kernel)]
  -- what is left has the two points only
  cases negative <;> decide +kernel

/-- A curve whose two windows both have the steepest rate. -/
def steepCurve (method : RiseMethod) (w : Nat) (negative : Bool) : List TemperaturePoint :=
  match method with
  | .windowedDifference => early negative :: (List.replicate w middle ++ [late negative])
  | .linearRegression =>
    early negative :: (List.replicate (w - 1) middle ++ [late negative, early negative])

theorem length_steepCurve {method : RiseMethod} {w : Nat} (hw : 0 < w) :
    (steepCurve method w negative).length = w + 2 := by
  cases method with
  | windowedDifference => simp [steepCurve]
  | linearRegression =>
      simp [steepCurve]
      omega

/-- One point more than a window has two windows. -/
theorem windows_cons {w : Nat} {first : TemperaturePoint} {rest : List TemperaturePoint}
    (hlength : rest.length = w + 1) :
    windows w (first :: rest) = [first :: rest.take w, rest] := by
  have htwo : (first :: rest).length - w = 2 := by
    rw [List.length_cons]
    omega
  have hrest : rest.take (w + 1) = rest := List.take_of_length_le hlength.le
  unfold windows
  rw [htwo, List.range_succ, List.range_one, List.map_append, List.map_singleton,
    List.map_singleton, List.drop_zero, List.drop_one, List.tail_cons, List.take_succ_cons, hrest]
  rfl

theorem rates_steepCurve (negative : Bool) (method : RiseMethod) {w : Nat} (hw : 0 < w) :
    ∀ q ∈ rates method w (steepCurve method w negative), q.2 = some (steepest negative).widen := by
  obtain ⟨k, rfl⟩ : ∃ k, w = k + 1 := ⟨w - 1, by omega⟩
  cases method with
  | windowedDifference =>
      have hdrop : (steepCurve .windowedDifference (k + 1) negative).drop (k + 1) =
          [middle, late negative] := by
        simp [steepCurve, List.replicate_succ']
      have hrates : rates .windowedDifference (k + 1)
          (steepCurve .windowedDifference (k + 1) negative) =
          [(middle, differenceRate? (early negative) middle),
            (late negative, differenceRate? middle (late negative))] := by
        unfold rates
        dsimp only
        rw [hdrop, steepCurve, List.replicate_succ]
        simp only [List.cons_append, List.zip_cons_cons, List.zip_nil_right, List.map_cons,
          List.map_nil]
      rw [hrates, differenceRate?_early, differenceRate?_late]
      simp
  | linearRegression =>
      let rest := List.replicate k middle ++ [late negative, early negative]
      have hlength : rest.length = k + 1 + 1 := by simp [rest]
      have hdrop : rest.drop k = [late negative, early negative] := by simp [rest]
      have htake : rest.take (k + 1) = List.replicate k middle ++ [late negative] := by
        simp [rest, List.take_append]
      have hrates : rates .linearRegression (k + 1)
          (steepCurve .linearRegression (k + 1) negative) =
          [(late negative, regressionRate?
              (early negative :: (List.replicate k middle ++ [late negative]))),
            (early negative, regressionRate? rest)] := by
        have hcurve : steepCurve .linearRegression (k + 1) negative = early negative :: rest := rfl
        unfold rates
        dsimp only
        rw [hcurve, List.drop_succ_cons, hdrop, windows_cons hlength, htake]
        rfl
      rw [hrates, regressionRate?_of_straddles (straddles_early_late k),
        regressionRate?_of_straddles (straddles_late_early k)]
      simp

theorem le_steepest {x : Single} (hx : x.isFinite = true) : x ≤ steepest false := by
  obtain ⟨a, ha⟩ := exists_rank (isNaN_of_isFinite hx)
  refine le_iff_rank.mpr ⟨a, _, ha, rfl, ?_⟩
  rcases finite_or_infinity_of_rank ha with ⟨-, hlt⟩ | ⟨rfl, -⟩ | ⟨rfl, -⟩
  · unfold signed
    simp only [Bool.false_eq_true, if_false]
    omega
  · cases hx
  · cases hx

theorem steepest_le {x : Single} (hx : x.isFinite = true) : steepest true ≤ x := by
  obtain ⟨a, ha⟩ := exists_rank (isNaN_of_isFinite hx)
  refine le_iff_rank.mpr ⟨_, a, rfl, ha, ?_⟩
  rcases finite_or_infinity_of_rank ha with ⟨-, hlt⟩ | ⟨rfl, -⟩ | ⟨rfl, -⟩
  · unfold signed
    simp only [if_true]
    omega
  · cases hx
  · cases hx

end Rise

end RoastTelemetry
