import RoastTelemetry.Proofs.Rise.Pipeline
import RoastTelemetry.Proofs.Roast.Landmarks
import RoastTelemetry.Roast.Phases

/-!
# Phases without overlap or gap

A rate is displayed at the time of a point of the curve, so it is never after the drop. With the end
of drying no later than first crack, that time is before the former, or between the two, or from the
latter on: a rate at a landmark belongs to the phase that begins there. The counts of the phases
therefore add up, and each mean is the mean of one stretch of the roast.
-/

namespace RoastTelemetry

open Binary

/-- A rate is displayed at a point of the curve. -/
theorem RisePipeline.place_mem_of_mem_rates (p : RisePipeline) {points : List TemperaturePoint}
    {q : RatePoint} (hq : q ∈ p.rates points) : q.place ∈ points := by
  have hplace : q.place ∈ (p.raw points).map RatePoint.place := by
    rw [← p.map_place_rates]
    exact List.mem_map_of_mem hq
  obtain ⟨r, hr, hsame⟩ := List.mem_map.mp hplace
  obtain ⟨i, start, stop, rate, -, hstop, -, -, rfl⟩ := Rise.exists_of_mem_estimate hr
  rw [← hsame]
  exact List.mem_of_getElem? hstop

namespace PhaseStats

variable {points : List RatePoint} {l : Landmarks}

/-! ## Means -/

/-- The mean of rates in list order, or another rate in the place of the mean of none. -/
def meanOr (other : Single) (points : List RatePoint) : Single :=
  if points = [] then other
  else
    (Binary.sum (points.map fun (p : RatePoint) => p.rate.widen) /
      Binary.ofNat points.length).narrow

theorem getD_mean? (other : Single) (points : List RatePoint) :
    (mean? points).getD other = meanOr other points := by
  cases points with
  | nil => rfl
  | cons p rest =>
      unfold mean? meanOr Binary.mean
      rw [if_neg (List.cons_ne_nil p rest), List.length_map, List.isEmpty_cons,
        if_neg Bool.false_ne_true, Option.getD_some]

/-- What is reported: the means of the phases, or of everything for a phase without a point. -/
theorem means_ofRates (points : List RatePoint) (l : Landmarks) :
    let stats := ofRates points l
    stats.dryMean = meanOr stats.overallMean (points.filter (isDry l)) ∧
      stats.maillardMean = meanOr stats.overallMean (points.filter (isMaillard l)) ∧
      stats.developmentMean = meanOr stats.overallMean (points.filter (isDevelopment l)) ∧
      stats.overallMean = meanOr 0 points ∧
      stats.sampleCount = UInt64.ofNat points.length := by
  have hoverall := getD_mean? 0 points
  unfold ofRates
  cases hmean : mean? points with
  | none =>
      have hnil : points = [] := by
        unfold mean? at hmean
        split at hmean
        · rename_i h
          exact List.isEmpty_iff.mp h
        · cases hmean
      subst hnil
      exact ⟨rfl, rfl, rfl, rfl, rfl⟩
  | some overallMean =>
      rw [hmean] at hoverall
      exact ⟨getD_mean? _ _, getD_mean? _ _, getD_mean? _ _, hoverall, rfl⟩

/-! ## Phases -/

/-- In how many phases a rate is counted. -/
def phaseCount (l : Landmarks) (p : RatePoint) : Nat :=
  [isDry l p, isMaillard l p, isDevelopment l p].count true

theorem phaseCount_eq (l : Landmarks) (p : RatePoint) :
    phaseCount l p = (isDry l p).toNat + (isMaillard l p).toNat + (isDevelopment l p).toNat := by
  unfold phaseCount
  cases isDry l p <;> cases isMaillard l p <;> cases isDevelopment l p <;> rfl

theorem length_phases (points : List RatePoint) (l : Landmarks) :
    (points.filter (isDry l)).length + (points.filter (isMaillard l)).length +
        (points.filter (isDevelopment l)).length = (points.map (phaseCount l)).sum := by
  simp only [← List.countP_eq_length_filter]
  induction points with
  | nil => rfl
  | cons p rest ih =>
      rw [List.map_cons, List.sum_cons, ← ih, phaseCount_eq]
      simp only [List.countP_cons]
      cases isDry l p <;> cases isMaillard l p <;> cases isDevelopment l p <;>
        simp only [Bool.toNat_true, Bool.toNat_false, if_true, Bool.false_eq_true, if_false] <;>
        omega

/-- If every rate is counted once, the counts add up. -/
theorem length_phases_of_count (h : ∀ p ∈ points, phaseCount l p = 1) :
    (points.filter (isDry l)).length + (points.filter (isMaillard l)).length +
        (points.filter (isDevelopment l)).length = points.length := by
  rw [length_phases, List.map_congr_left h, List.map_const', List.sum_replicate_nat, Nat.mul_one]

/-- The landmarks around the phases of a roast: the end of drying, first crack and the drop. -/
structure Bounds (l : Landmarks) (dryEnd firstCrack drop : Double) : Prop where
  dryEnd_eq : l.dryEnd = some dryEnd
  firstCrack_eq : l.firstCrack = some firstCrack
  drop_eq : l.drop = some drop
  le : dryEnd ≤ firstCrack

namespace Bounds

variable {dryEnd firstCrack drop : Double} {p : RatePoint}

theorem isDry_eq (h : Bounds l dryEnd firstCrack drop) (p : RatePoint) :
    isDry l p = decide (p.time < dryEnd) := by
  unfold isDry
  rw [h.dryEnd_eq]

theorem isMaillard_eq (h : Bounds l dryEnd firstCrack drop) (p : RatePoint) :
    isMaillard l p = decide (dryEnd ≤ p.time ∧ p.time < firstCrack) := by
  unfold isMaillard
  rw [h.dryEnd_eq, h.firstCrack_eq, Bool.decide_and]

/-- Up to the drop only first crack counts. -/
theorem isDevelopment_eq (h : Bounds l dryEnd firstCrack drop) (hp : p.time ≤ drop) :
    isDevelopment l p = decide (firstCrack ≤ p.time) := by
  unfold isDevelopment
  rw [h.firstCrack_eq, h.drop_eq]
  dsimp only
  rw [decide_eq_true hp, Bool.and_true]

/-- **A rate up to the drop is counted in one phase.** -/
theorem phaseCount_eq_one (h : Bounds l dryEnd firstCrack drop) (hp : p.time ≤ drop) :
    phaseCount l p = 1 := by
  obtain ⟨htime, -⟩ := isNaN_of_le hp
  obtain ⟨hdry, hcrack⟩ := isNaN_of_le h.le
  rw [phaseCount_eq, h.isDry_eq, h.isMaillard_eq, h.isDevelopment_eq hp]
  by_cases hbefore : p.time < dryEnd
  · -- before the end of drying, and so before first crack
    have hnotDry := not_le_of_lt hbefore
    have hnotCrack : ¬firstCrack ≤ p.time := fun hle => hnotDry (le_trans h.le hle)
    rw [decide_eq_true hbefore, decide_eq_false fun hle => hnotDry hle.1,
      decide_eq_false hnotCrack]
    rfl
  · have hfrom := le_of_not_lt htime hdry hbefore
    rw [decide_eq_false hbefore]
    by_cases hcracked : p.time < firstCrack
    · rw [decide_eq_true ⟨hfrom, hcracked⟩, decide_eq_false (not_le_of_lt hcracked)]
      rfl
    · rw [decide_eq_false fun hle => hcracked hle.2,
        decide_eq_true (le_of_not_lt htime hcrack hcracked)]
      rfl

end Bounds

/-! ## A roast from its curve -/

variable {curve : List TemperaturePoint} {thresholds : Thresholds}

/-- First crack found on a curve, and with it the landmarks around the phases. -/
theorem exists_bounds (horder : InTimeOrder curve)
    (hdry : thresholds.dryEnd ≤ thresholds.firstCrack) {firstCrack : Double}
    (hcrack : (Landmarks.ofCurve curve {} thresholds).firstCrack = some firstCrack) :
    ∃ dryEnd drop, Bounds (Landmarks.ofCurve curve {} thresholds) dryEnd firstCrack drop ∧
      ∀ q ∈ curve, q.time ≤ drop := by
  obtain ⟨dryEnd, hreached, hle⟩ := Landmarks.exists_reached?_le horder hdry hcrack
  obtain ⟨p, hp, -⟩ := Landmarks.exists_of_reached? hcrack
  obtain ⟨last, hlast⟩ := Option.isSome_iff_exists.mp
    (List.getLast?_isSome.mpr (List.ne_nil_of_mem hp))
  have hdrop : (Landmarks.ofCurve curve {} thresholds).drop = some last.time := by
    rw [Landmarks.ofCurve_unmarked, hlast]
    rfl
  exact ⟨dryEnd, last.time, ⟨hreached, hcrack, hdrop, hle⟩, horder.le_last hlast⟩

/--
**The landmarks of a curve split a roast into phases without overlap or gap.**

Take a curve in time order, thresholds in order, and nothing marked by hand. A later landmark is set
only with the ones before it, and the landmarks that are set are in order. With first crack, every
rate that is displayed along the curve is counted in one of the three phases, so their counts add up
to the number of rates; and each phase reports the mean of the rates in its stretch of time, from
its beginning up to the beginning of the next one, or the overall mean if there is none.
-/
theorem phases_partition_rates (pipeline : RisePipeline) (horder : InTimeOrder curve)
    (hdry : thresholds.dryEnd ≤ thresholds.firstCrack)
    (hcrack : thresholds.firstCrack ≤ thresholds.secondCrack) :
    let l := Landmarks.ofCurve curve {} thresholds
    let rates := pipeline.rates curve
    let stats := ofRates rates l
    (l.secondCrack.isSome = true → l.firstCrack.isSome = true) ∧
      (l.firstCrack.isSome = true → l.dryEnd.isSome = true) ∧
      Ascending [l.dryEnd, l.firstCrack, l.secondCrack, l.drop].reduceOption ∧
      ∀ firstCrack, l.firstCrack = some firstCrack →
        (∀ q ∈ rates, phaseCount l q = 1) ∧
        (rates.filter (isDry l)).length + (rates.filter (isMaillard l)).length +
          (rates.filter (isDevelopment l)).length = rates.length ∧
        stats.sampleCount = UInt64.ofNat rates.length ∧
        stats.overallMean = meanOr 0 rates ∧
        ∃ dryEnd, l.dryEnd = some dryEnd ∧
          stats.dryMean = meanOr stats.overallMean (rates.filter fun q => q.time < dryEnd) ∧
          stats.maillardMean = meanOr stats.overallMean
            (rates.filter fun q => dryEnd ≤ q.time ∧ q.time < firstCrack) ∧
          stats.developmentMean = meanOr stats.overallMean
            (rates.filter fun q => firstCrack ≤ q.time) := by
  intro l rates stats
  refine ⟨Landmarks.isSome_reached? horder hcrack, Landmarks.isSome_reached? horder hdry,
    Landmarks.ascending_ofCurve horder hdry hcrack, ?_⟩
  intro firstCrack hfirst
  obtain ⟨dryEnd, drop, hbounds, hend⟩ := exists_bounds horder hdry hfirst
  have hdrop : ∀ q ∈ rates, q.time ≤ drop :=
    fun q hq => hend q.place (pipeline.place_mem_of_mem_rates hq)
  have hcount : ∀ q ∈ rates, phaseCount l q = 1 :=
    fun q hq => hbounds.phaseCount_eq_one (hdrop q hq)
  obtain ⟨hmeanDry, hmeanMaillard, hmeanDevelopment, hmean, hsamples⟩ := means_ofRates rates l
  refine ⟨hcount, length_phases_of_count hcount, hsamples, hmean, dryEnd, hbounds.dryEnd_eq,
    ?_, ?_, ?_⟩
  · rw [hmeanDry, List.filter_congr fun q _ => hbounds.isDry_eq q]
  · rw [hmeanMaillard, List.filter_congr fun q _ => hbounds.isMaillard_eq q]
  · rw [hmeanDevelopment, List.filter_congr fun q hq => hbounds.isDevelopment_eq (hdrop q hq)]

/-- Times that repeat, points on the landmarks, and a phase of drying without a rate. -/
theorem phases_partition_rates_at_landmarks :
    let curve : List TemperaturePoint :=
      [⟨0, 150⟩, ⟨60, 160⟩, ⟨60, 170⟩, ⟨120, 196⟩, ⟨180, 196⟩, ⟨180, 210⟩]
    let thresholds : Thresholds := {}
    let pipeline : RisePipeline := ⟨{ window := 1 }, by decide +kernel⟩
    let l := Landmarks.ofCurve curve {} thresholds
    let rates := pipeline.rates curve
    InTimeOrder curve ∧ thresholds.dryEnd ≤ thresholds.firstCrack ∧
      thresholds.firstCrack ≤ thresholds.secondCrack ∧
      rates.map RatePoint.time = [60, 120, 180] ∧ l.dryEnd = some 60 ∧ l.firstCrack = some 120 ∧
      l.drop = some 180 ∧ (∀ q ∈ rates, phaseCount l q = 1) ∧
      (ofRates rates l).dryMean = (ofRates rates l).overallMean := by
  intro curve thresholds pipeline l rates
  have horder : InTimeOrder curve := by
    unfold InTimeOrder Ascending
    decide +kernel
  have hdry : thresholds.dryEnd ≤ thresholds.firstCrack := by decide +kernel
  have hcrack : thresholds.firstCrack ≤ thresholds.secondCrack := by decide +kernel
  have hfirst : l.firstCrack = some 120 := by decide +kernel
  have htimes : rates.map RatePoint.time = [60, 120, 180] := by decide +kernel
  obtain ⟨-, -, -, hphases⟩ := phases_partition_rates pipeline horder hdry hcrack
  obtain ⟨hcount, -, -, -, dryEnd, hdryEnd, hmean, -, -⟩ := hphases 120 hfirst
  have hdryEnd' : l.dryEnd = some 60 := by decide +kernel
  have hdrop : l.drop = some 180 := by decide +kernel
  refine ⟨horder, hdry, hcrack, htimes, hdryEnd', hfirst, hdrop, hcount, ?_⟩
  -- no rate is displayed before the end of drying
  have hnone : (rates.filter fun q => q.time < 60) = [] := by decide +kernel
  rw [Option.some.inj (hdryEnd.symm.trans hdryEnd'), hnone] at hmean
  exact hmean

end PhaseStats

end RoastTelemetry
