import RoastTelemetry.Proofs.Rise.Pipeline
import RoastTelemetry.Proofs.Rise.Steepest

/-!
# When the band bounds what is displayed

Rates are clamped into the band and smoothed afterwards, with three roundings a point. Smoothing is
monotone, so no rate leaves the band if its ends do not; and the ends do occur, twice in a row,
since there are curves that are steep enough. Whether an end is pushed over itself depends on the
bits of the weight and of the end. The default weight keeps the default band, others do not.
-/

namespace RoastTelemetry

open Binary

theorem SpikeBand.Valid.contains_blend {band : SpikeBand} (hvalid : band.Valid) {alpha : Single}
    {a b : ℚ} (h : Rise.Weights alpha a b)
    (hends : band.low ≤ Rise.blend alpha band.low band.low ∧
      Rise.blend alpha band.high band.high ≤ band.high)
    {before rate : Single} (hbefore : band.Contains before) (hrate : band.Contains rate) :
    band.Contains (Rise.blend alpha before rate) := by
  have hb := hvalid.isFinite_of_contains hbefore
  have hr := hvalid.isFinite_of_contains hrate
  constructor
  · exact le_trans hends.1 (h.blend_le_blend hbefore.1 hrate.1 hvalid.low_isFinite hb
      hvalid.low_isFinite hr)
  · exact le_trans (h.blend_le_blend hbefore.2 hrate.2 hb hvalid.high_isFinite hr
      hvalid.high_isFinite) hends.2

namespace RisePipeline

variable (p : RisePipeline) {band : SpikeBand}

/-- Some curve leads to either end of the band and holds it for two points. -/
theorem exists_mem_rates (hband : p.settings.band = some band) (negative : Bool) :
    ∃ points, ∃ q ∈ p.rates points, q.rate = Rise.blend p.settings.alpha
      (band.clamp (Rise.steepest negative)) (band.clamp (Rise.steepest negative)) := by
  have hw := p.window_pos
  refine ⟨Rise.steepCurve p.settings.method p.settings.window.toNat negative, ?_⟩
  have hraw : (p.raw (Rise.steepCurve p.settings.method p.settings.window.toNat negative)).map
      RatePoint.rate = [Rise.steepest negative, Rise.steepest negative] := by
    have hrates := Rise.map_rate_estimate (Rise.rates_steepCurve negative p.settings.method hw) rfl
    rwa [Rise.length_steepCurve hw, Nat.add_sub_cancel_left] at hrates
  obtain ⟨first, rest, hfirst, hrate, hrest⟩ := List.map_eq_cons_iff.mp hraw
  obtain ⟨second, rest, rfl, hrate', hrest⟩ := List.map_eq_cons_iff.mp hrest
  obtain rfl := List.map_eq_nil_iff.mp hrest
  refine ⟨{ second with
    rate := Rise.blend p.settings.alpha (band.clamp first.rate) (band.clamp second.rate) }, ?_, ?_⟩
  · rw [rates_eq]
    unfold despiked
    rw [hband, hfirst]
    exact List.mem_cons_of_mem _ List.mem_cons_self
  · rw [hrate, hrate']

theorem contains_of_mem_rates (hband : p.settings.band = some band)
    (hends : band.low ≤ Rise.blend p.settings.alpha band.low band.low ∧
      Rise.blend p.settings.alpha band.high band.high ≤ band.high)
    {points : List TemperaturePoint} :
    ∀ q ∈ p.rates points, band.Contains q.rate := by
  have hvalid := p.isValid.band_valid band hband
  obtain ⟨a, b, hweights⟩ := p.exists_weights
  rw [rates_eq]
  refine Rise.forall_smooth (fun _ _ => hvalid.contains_blend hweights hends) ?_
  unfold despiked
  rw [hband]
  exact Rise.forall_despike fun q _ => hvalid.contains_clamp q.rate

/--
**The band bounds what is displayed exactly if smoothing keeps its ends.** One mean decides for
either end, and so for every curve and every other rate: the mean of the end with itself must not be
pushed over it by rounding.
-/
theorem rates_within_band_iff (hband : p.settings.band = some band) :
    (∀ points, ∀ q ∈ p.rates points, band.low ≤ q.rate ∧ q.rate ≤ band.high) ↔
      band.low ≤ Rise.blend p.settings.alpha band.low band.low ∧
        Rise.blend p.settings.alpha band.high band.high ≤ band.high := by
  constructor
  · intro h
    have hvalid := p.isValid.band_valid band hband
    obtain ⟨a, b, hweights⟩ := p.exists_weights
    have hclamp : ∀ negative, (band.clamp (Rise.steepest negative)).isFinite = true :=
      fun negative => hvalid.isFinite_of_contains (hvalid.contains_clamp _)
    constructor
    · have hlow := hvalid.clamp_le_low (Rise.steepest_le hvalid.low_isFinite)
      obtain ⟨points, q, hq, hrate⟩ := p.exists_mem_rates hband true
      have hwithin := (h points q hq).1
      rw [hrate] at hwithin
      exact le_trans hwithin (hweights.blend_le_blend hlow hlow (hclamp true) hvalid.low_isFinite
        (hclamp true) hvalid.low_isFinite)
    · have hhigh := hvalid.high_le_clamp (Rise.le_steepest hvalid.high_isFinite)
      obtain ⟨points, q, hq, hrate⟩ := p.exists_mem_rates hband false
      have hwithin := (h points q hq).2
      rw [hrate] at hwithin
      exact le_trans (hweights.blend_le_blend hhigh hhigh hvalid.high_isFinite (hclamp false)
        hvalid.high_isFinite (hclamp false)) hwithin
  · intro hends points q hq
    exact p.contains_of_mem_rates hband hends q hq

/-- The default weight keeps the ends of the default band. -/
theorem rates_within_default_band :
    let p : RisePipeline := ⟨{}, by decide +kernel⟩
    p.settings.band = some SpikeBand.default ∧
      ∀ points, ∀ q ∈ p.rates points, Binary.neg 30 ≤ q.rate ∧ q.rate ≤ 60 := by
  intro p
  have hband : p.settings.band = some SpikeBand.default := rfl
  refine ⟨hband, ?_⟩
  exact (rates_within_band_iff p hband).mpr (by decide +kernel)

/-- A weight that does not: a bean that gains two degrees a second is shown above the band. -/
theorem rates_exceed_default_band :
    let settings : RiseSettings := { window := 1, alpha := 0.02 }
    let points : List TemperaturePoint := [⟨0, 100⟩, ⟨1, 102⟩, ⟨2, 104⟩]
    settings.validate = .ok () ∧ settings.band = some SpikeBand.default ∧
      settings.rates points = .ok [⟨1, 102, 60⟩, ⟨2, 104, ofBits 0x42700001⟩] ∧
      SpikeBand.default.high < ofBits 0x42700001 := by
  decide +kernel

end RisePipeline

end RoastTelemetry
