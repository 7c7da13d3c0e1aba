import RoastTelemetry.Proofs.Binary.Sums
import RoastTelemetry.Proofs.Roast.Phases
import Mathlib.Order.Bounds.Defs

/-!
# Means between the extremes

Rates are single-precision numbers, added up and divided in double precision. That leaves 29 bits to
count with: up to so many points as many times the smallest rate is a double, and no partial sum is
rounded below it, nor above as many times the largest. So the mean of any part of the rates lies
between the smallest and the largest rate of all, without a tolerance, and so does what is reported
for a phase without a point, which is the mean of all.
-/

namespace RoastTelemetry.PhaseStats

open Binary

variable {points : List RatePoint} {l : Landmarks} {low high other : Single}

/-! ## One mean -/

/-- A rate between two others. -/
def Amid (low high rate : Single) : Prop := low ≤ rate ∧ rate ≤ high

/-- **A mean of at most `2 ^ 29` rates lies between any bounds of them.** -/
theorem amid_meanOr (hlow : low.isFinite = true) (hhigh : high.isFinite = true)
    (hlength : points.length ≤ 2 ^ 29) (hrates : ∀ p ∈ points, Amid low high p.rate)
    (hother : points = [] → Amid low high other) : Amid low high (meanOr other points) := by
  unfold meanOr
  split
  · rename_i hnil
    exact hother hnil
  · rename_i hne
    have hl := denotes_value hlow
    have hh := denotes_value hhigh
    let rates := points.map fun (p : RatePoint) => p.rate.widen
    have hcount : rates.length = points.length := List.length_map _
    have hterms : ∀ x ∈ rates, x.LiesIn low.value high.value := by
      intro x hx
      obtain ⟨p, hp, rfl⟩ := List.mem_map.mp hx
      obtain ⟨hle, hle'⟩ := hrates p hp
      have hr := denotes_value (isFinite_of_between hle hle' hlow hhigh)
      exact ⟨_, hr.widen, (hl.le_iff hr).mp hle, (hr.le_iff hh).mp hle'⟩
    have hfits : rates.length ≤ 2 ^ 29 := by rwa [hcount]
    have hsize := denotes_ofNat_double (hfits.trans (by norm_num))
    obtain ⟨m, hm, hml, hmh⟩ := liesIn_mean (mt List.map_eq_nil_iff.mp hne) hsize hterms
      (hl.multiplesFit.mono hfits) (hh.multiplesFit.mono hfits)
    have hnarrow := ((hm.convert .single).liesIn hl.fits hh.fits hml hmh).le_le hl hh
    unfold mean at hnarrow
    rwa [hcount] at hnarrow

/-! ## The extremes -/

theorem isFinite_of_mem_rates (hfinite : ∀ p ∈ points, p.rate.isFinite = true) :
    ∀ x ∈ points.map RatePoint.rate, x.isFinite = true := by
  intro x hx
  obtain ⟨p, hp, rfl⟩ := List.mem_map.mp hx
  exact hfinite p hp

/-- The extremes that are reported, for rates that are there. -/
theorem extremes_ofRates (hne : points ≠ []) (l : Landmarks) :
    (ofRates points l).min = (points.map RatePoint.rate).foldl Binary.min (.infinity false) ∧
      (ofRates points l).max = (points.map RatePoint.rate).foldl Binary.max (.infinity true) := by
  obtain ⟨p, rest, rfl⟩ := List.exists_cons_of_ne_nil hne
  rw [List.foldl_map, List.foldl_map]
  exact ⟨rfl, rfl⟩

/-- The smallest rate is one of them. -/
theorem isLeast_min (hne : points ≠ []) (hfinite : ∀ p ∈ points, p.rate.isFinite = true)
    (l : Landmarks) : IsLeast {x | x ∈ points.map RatePoint.rate} (ofRates points l).min := by
  rw [(extremes_ofRates hne l).1]
  have hrates := isFinite_of_mem_rates hfinite
  exact picks_min.foldl_mem (mt List.map_eq_nil_iff.mp hne)
    (fun x hx => isNaN_of_isFinite (hrates x hx)) rfl fun x hx => not_infinity_le (hrates x hx)

theorem isGreatest_max (hne : points ≠ []) (hfinite : ∀ p ∈ points, p.rate.isFinite = true)
    (l : Landmarks) : IsGreatest {x | x ∈ points.map RatePoint.rate} (ofRates points l).max := by
  rw [(extremes_ofRates hne l).2]
  have hrates := isFinite_of_mem_rates hfinite
  exact picks_max.foldl_mem (mt List.map_eq_nil_iff.mp hne)
    (fun x hx => isNaN_of_isFinite (hrates x hx)) rfl fun x hx => not_le_neg_infinity (hrates x hx)

/--
**The means of the phases lie between the extremes, exactly.**

Of at most `2 ^ 29` finite rates the smallest and the largest are reported, and how many there are.
The four means lie between these two, wherever the landmarks are, set or not, in order or not, or
NaN, and although every sum on the way is rounded.
-/
theorem means_within_extremes (points : List RatePoint) (l : Landmarks) (hne : points ≠ [])
    (hlength : points.length ≤ 2 ^ 29) (hfinite : ∀ p ∈ points, p.rate.isFinite = true) :
    let stats := ofRates points l
    IsLeast {x | x ∈ points.map RatePoint.rate} stats.min ∧
      IsGreatest {x | x ∈ points.map RatePoint.rate} stats.max ∧
      stats.sampleCount.toNat = points.length ∧
      ∀ mean ∈ [stats.dryMean, stats.maillardMean, stats.developmentMean, stats.overallMean],
        stats.min ≤ mean ∧ mean ≤ stats.max := by
  intro stats
  have hleast := isLeast_min hne hfinite l
  have hgreatest := isGreatest_max hne hfinite l
  obtain ⟨hdry, hmaillard, hdevelopment, hoverall, hcount⟩ := means_ofRates points l
  have hmin := isFinite_of_mem_rates hfinite _ hleast.1
  have hmax := isFinite_of_mem_rates hfinite _ hgreatest.1
  have hamid : ∀ p ∈ points, Amid stats.min stats.max p.rate :=
    fun p hp => ⟨hleast.2 (List.mem_map_of_mem hp), hgreatest.2 (List.mem_map_of_mem hp)⟩
  have hmean : Amid stats.min stats.max stats.overallMean := by
    rw [hoverall]
    exact amid_meanOr hmin hmax hlength hamid fun hnil => absurd hnil hne
  -- a phase is a part of the points, or empty
  have hphase : ∀ phase : RatePoint → Bool,
      Amid stats.min stats.max (meanOr stats.overallMean (points.filter phase)) := by
    intro phase
    refine amid_meanOr hmin hmax ((List.length_filter_le _ _).trans hlength) ?_ fun _ => hmean
    exact fun p hp => hamid p (List.mem_of_mem_filter hp)
  refine ⟨hleast, hgreatest, ?_, ?_⟩
  · rw [hcount, UInt64.toNat_ofNat']
    exact Nat.mod_eq_of_lt (hlength.trans_lt (by decide))
  · simp only [List.forall_mem_cons, List.not_mem_nil, IsEmpty.forall_iff, implies_true, and_true]
    rw [hdry, hmaillard, hdevelopment]
    exact ⟨hphase _, hphase _, hphase _, hmean⟩

/-- Rates that cancel but for a tenth, whose drying ends at the second, and a first crack that is
NaN. -/
theorem means_within_extremes_cancelling :
    let points : List RatePoint := [⟨0, 90, 3e38⟩, ⟨1, 91, -3e38⟩, ⟨2, 92, 0.1⟩]
    let l : Landmarks := { dryEnd := some 1, firstCrack := some .nan }
    let stats := ofRates points l
    points ≠ [] ∧ points.length ≤ 2 ^ 29 ∧ (∀ p ∈ points, p.rate.isFinite = true) ∧
      IsLeast {x | x ∈ points.map RatePoint.rate} stats.min ∧
      IsGreatest {x | x ∈ points.map RatePoint.rate} stats.max ∧
      stats.sampleCount.toNat = points.length ∧
      ∀ mean ∈ [stats.dryMean, stats.maillardMean, stats.developmentMean, stats.overallMean],
        stats.min ≤ mean ∧ mean ≤ stats.max := by
  intro points l stats
  have hne : points ≠ [] := List.cons_ne_nil _ _
  have hlength : points.length ≤ 2 ^ 29 := by decide
  have hfinite : ∀ p ∈ points, p.rate.isFinite = true := by decide +kernel
  exact ⟨hne, hlength, hfinite, means_within_extremes points l hne hlength hfinite⟩

end RoastTelemetry.PhaseStats
