import RoastTelemetry.Proofs.Binary.Ordered
import RoastTelemetry.Roast.Landmarks
import Mathlib.Data.List.ReduceOption

/-!
# The order of the landmarks

A landmark is the time of the first point at its temperature or above it, wherever the curve goes
afterwards. A point that is hot enough for the higher of two temperatures is hot enough for the
lower one, so on a curve in time order the lower one is reached no later, and if the higher one is
reached at all. The drop is the time of the last point, and no point comes after that.
-/

namespace RoastTelemetry

open Binary

/-- A curve in time order, with a time at every point. -/
def InTimeOrder (curve : List TemperaturePoint) : Prop :=
  Ascending (curve.map TemperaturePoint.time)

namespace InTimeOrder

variable {p : TemperaturePoint} {curve : List TemperaturePoint}

theorem isNaN_time (h : InTimeOrder curve) (hp : p ∈ curve) : p.time.isNaN = false :=
  h.2 _ (List.mem_map_of_mem hp)

theorem head_le (h : InTimeOrder (p :: curve)) : ∀ q ∈ curve, p.time ≤ q.time := by
  intro q hq
  exact (List.pairwise_cons.mp h.1).1 _ (List.mem_map_of_mem hq)

theorem tail (h : InTimeOrder (p :: curve)) : InTimeOrder curve :=
  ⟨(List.pairwise_cons.mp h.1).2, fun t ht => h.2 t (List.mem_cons_of_mem _ ht)⟩

theorem le_last (h : InTimeOrder curve) {last : TemperaturePoint}
    (hlast : curve.getLast? = some last) : ∀ q ∈ curve, q.time ≤ last.time := by
  obtain ⟨init, rfl⟩ := List.getLast?_eq_some_iff.mp hlast
  intro q hq
  rcases List.mem_append.mp hq with hq' | hq'
  · have hpairs := List.pairwise_append.mp (List.map_append ▸ h.1)
    exact hpairs.2.2 _ (List.mem_map_of_mem hq') _ (by simp)
  · rw [List.mem_singleton.mp hq']
    exact le_self (h.isNaN_time (by simp))

end InTimeOrder

namespace Landmarks

variable {curve : List TemperaturePoint} {t : Double}

/-! ## Reaching a temperature -/

theorem reached?_cons (p : TemperaturePoint) (curve : List TemperaturePoint) (threshold : Single) :
    reached? (p :: curve) threshold =
      if threshold ≤ p.temperature then some p.time else reached? curve threshold := by
  unfold reached?
  rw [List.find?_cons]
  by_cases h : threshold ≤ p.temperature
  · rw [if_pos h, decide_eq_true h]
    rfl
  · rw [if_neg h, decide_eq_false h]

/-- Landmarks are times of points. -/
theorem exists_of_reached? {threshold : Single} (h : reached? curve threshold = some t) :
    ∃ p ∈ curve, p.time = t := by
  obtain ⟨p, hp, ht⟩ := Option.map_eq_some_iff.mp h
  exact ⟨p, List.mem_of_find?_eq_some hp, ht⟩

/-- **A lower temperature is reached no later.** -/
theorem exists_reached?_le (horder : InTimeOrder curve) {low high : Single} (h : low ≤ high)
    (ht : reached? curve high = some t) : ∃ s, reached? curve low = some s ∧ s ≤ t := by
  induction curve with
  | nil => cases ht
  | cons p rest ih =>
      rw [reached?_cons] at ht ⊢
      by_cases hlow : low ≤ p.temperature
      · rw [if_pos hlow]
        refine ⟨p.time, rfl, ?_⟩
        split at ht
        · obtain rfl := Option.some.inj ht
          exact le_self (horder.isNaN_time (List.mem_cons_self))
        · obtain ⟨q, hq, rfl⟩ := exists_of_reached? ht
          exact horder.head_le q hq
      · -- too cool for the lower one, so for the higher one as well
        rw [if_neg fun hhigh => hlow (le_trans h hhigh)] at ht
        rw [if_neg hlow]
        exact ih horder.tail ht

/-! ## Landmarks that nobody marked -/

theorem ofCurve_unmarked (curve : List TemperaturePoint) (thresholds : Thresholds) :
    ofCurve curve {} thresholds =
      { dryEnd := reached? curve thresholds.dryEnd
        firstCrack := reached? curve thresholds.firstCrack
        secondCrack := reached? curve thresholds.secondCrack
        developmentStart := reached? curve thresholds.firstCrack
        drop := curve.getLast?.map TemperaturePoint.time } := rfl

/-- No landmark comes after the drop. -/
theorem le_drop_of_reached? (horder : InTimeOrder curve) {threshold : Single} {drop : Double}
    (ht : reached? curve threshold = some t)
    (hdrop : curve.getLast?.map TemperaturePoint.time = some drop) : t ≤ drop := by
  obtain ⟨p, hp, rfl⟩ := exists_of_reached? ht
  obtain ⟨last, hlast, rfl⟩ := Option.map_eq_some_iff.mp hdrop
  exact horder.le_last hlast p hp

/-- Two times come in order if both are there. -/
def Before (a b : Option Double) : Prop := ∀ s, a = some s → ∀ t, b = some t → s ≤ t

theorem before_reached? (horder : InTimeOrder curve) {low high : Single} (h : low ≤ high) :
    Before (reached? curve low) (reached? curve high) := by
  intro s hs t ht
  obtain ⟨s', hs', hle⟩ := exists_reached?_le horder h ht
  obtain rfl := Option.some.inj (hs.symm.trans hs')
  exact hle

theorem isSome_reached? (horder : InTimeOrder curve) {low high : Single} (h : low ≤ high)
    (hhigh : (reached? curve high).isSome = true) : (reached? curve low).isSome = true := by
  obtain ⟨t, ht⟩ := Option.isSome_iff_exists.mp hhigh
  obtain ⟨s, hs, -⟩ := exists_reached?_le horder h ht
  rw [hs]
  rfl

/-- **Those landmarks that are set come in the order of a roast.** -/
theorem ascending_ofCurve (horder : InTimeOrder curve) {thresholds : Thresholds}
    (hdry : thresholds.dryEnd ≤ thresholds.firstCrack)
    (hcrack : thresholds.firstCrack ≤ thresholds.secondCrack) :
    let l := ofCurve curve {} thresholds
    Ascending [l.dryEnd, l.firstCrack, l.secondCrack, l.drop].reduceOption := by
  intro l
  have hdrop : ∀ threshold, Before (reached? curve threshold) l.drop :=
    fun threshold s hs t ht => le_drop_of_reached? horder hs ht
  have hpairs : [l.dryEnd, l.firstCrack, l.secondCrack, l.drop].Pairwise Before := by
    simp only [List.pairwise_cons, List.mem_cons, List.not_mem_nil, or_false, forall_eq_or_imp,
      forall_eq, IsEmpty.forall_iff, implies_true, List.Pairwise.nil, and_true]
    exact ⟨⟨before_reached? horder hdry, before_reached? horder (le_trans hdry hcrack),
      hdrop thresholds.dryEnd⟩, ⟨before_reached? horder hcrack, hdrop thresholds.firstCrack⟩,
      hdrop thresholds.secondCrack⟩
  refine ⟨List.pairwise_filterMap.mpr hpairs, ?_⟩
  -- each landmark is the time of a point
  have hpoint : ∀ a ∈ [l.dryEnd, l.firstCrack, l.secondCrack, l.drop], ∀ t, a = some t →
      ∃ p ∈ curve, p.time = t := by
    simp only [List.forall_mem_cons, List.not_mem_nil, IsEmpty.forall_iff, implies_true, and_true]
    refine ⟨fun t => exists_of_reached?, fun t => exists_of_reached?, fun t => exists_of_reached?,
      fun t ht => ?_⟩
    obtain ⟨last, hlast, rfl⟩ := Option.map_eq_some_iff.mp ht
    exact ⟨last, List.mem_of_getLast? hlast, rfl⟩
  intro t ht
  obtain ⟨p, hp, rfl⟩ := hpoint _ (List.reduceOption_mem_iff.mp ht) t rfl
  exact horder.isNaN_time hp

end Landmarks

end RoastTelemetry
