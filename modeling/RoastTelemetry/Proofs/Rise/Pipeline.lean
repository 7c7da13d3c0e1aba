import RoastTelemetry.Proofs.Rise.Smoothing
import RoastTelemetry.Proofs.Rise.SpikeBand
import RoastTelemetry.Rise.Pipeline

/-!
# The displayed rate of rise

Estimates that are not finite are dropped, and neither despiking nor smoothing makes any, so all
that is displayed is finite, for any curve and any settings that pass `validate`.

Estimating and smoothing look back only, and the median looks one point ahead. So what is displayed
stays when the curve grows, but for the last point where there is a band, which then gets its second
neighbour.
-/

namespace RoastTelemetry

open Binary

namespace RiseSettings

/-- What `validate` accepts. -/
structure Valid (s : RiseSettings) : Prop where
  window_ne_zero : s.window ≠ 0
  alpha_pos : 0 < s.alpha
  alpha_le_one : s.alpha ≤ 1
  band_valid : ∀ band ∈ s.band, band.Valid

theorem validate_eq_ok_iff {s : RiseSettings} : s.validate = .ok () ↔ s.Valid := by
  unfold validate
  constructor
  · intro h
    split at h
    · cases h
    · rename_i hwindow
      split at h
      · cases h
      · rename_i halpha
        obtain ⟨hpos, hone⟩ := not_not.mp halpha
        refine ⟨hwindow, hpos, hone, ?_⟩
        intro band hband
        rw [Option.mem_def.mp hband] at h
        exact SpikeBand.validate_eq_ok_iff.mp h
  · intro h
    rw [if_neg h.window_ne_zero, if_neg (not_not.mpr ⟨h.alpha_pos, h.alpha_le_one⟩)]
    cases hband : s.band with
    | none => rfl
    | some band => exact SpikeBand.validate_eq_ok_iff.mpr (h.band_valid band hband)

end RiseSettings

theorem RisePipeline.ofSettings_of_validate {s : RiseSettings} (h : s.validate = .ok ()) :
    ofSettings s = .ok ⟨s, h⟩ := by
  unfold ofSettings
  split
  · rfl
  · rename_i heq
    rw [h] at heq
    cases heq

theorem RisePipeline.validate_of_ofSettings {s : RiseSettings} {p : RisePipeline}
    (h : ofSettings s = .ok p) : s.validate = .ok () := by
  unfold ofSettings at h
  split at h
  · assumption
  · cases h

theorem RiseSettings.rates_of_validate {s : RiseSettings} (h : s.validate = .ok ())
    (points : List TemperaturePoint) : s.rates points = .ok (RisePipeline.rates ⟨s, h⟩ points) := by
  unfold RiseSettings.rates
  rw [RisePipeline.ofSettings_of_validate h]
  rfl

namespace RisePipeline

/-- The estimates along a curve. -/
def raw (p : RisePipeline) (points : List TemperaturePoint) : List RatePoint :=
  Rise.estimate p.settings.method p.settings.window.toNat points

/-- The estimates without their spikes. -/
def despiked (p : RisePipeline) (points : List TemperaturePoint) : List RatePoint :=
  match p.settings.band with
  | some band => Rise.despike band (p.raw points)
  | none => p.raw points

theorem rates_eq (p : RisePipeline) (points : List TemperaturePoint) :
    p.rates points = Rise.smooth p.settings.alpha (p.despiked points) := rfl

theorem isValid (p : RisePipeline) : p.settings.Valid := RiseSettings.validate_eq_ok_iff.mp p.valid

variable (p : RisePipeline)

theorem window_pos : 0 < p.settings.window.toNat := by
  have hne := p.isValid.window_ne_zero
  rw [ne_eq, ← UInt64.toNat_inj] at hne
  exact Nat.pos_of_ne_zero hne

theorem exists_weights : ∃ a b, Rise.Weights p.settings.alpha a b :=
  Rise.exists_weights p.isValid.alpha_pos p.isValid.alpha_le_one

theorem map_place_despiked (points : List TemperaturePoint) :
    (p.despiked points).map RatePoint.place = (p.raw points).map RatePoint.place := by
  unfold despiked
  split
  · exact Rise.map_place_despike _ _
  · rfl

theorem map_place_rates (points : List TemperaturePoint) :
    (p.rates points).map RatePoint.place = (p.raw points).map RatePoint.place := by
  rw [rates_eq, Rise.map_place_smooth, map_place_despiked]

theorem length_rates (points : List TemperaturePoint) :
    (p.rates points).length = (p.raw points).length := by
  have h := congrArg List.length (p.map_place_rates points)
  rwa [List.length_map, List.length_map] at h

/-! ## Finite rates -/

theorem isFinite_of_mem_despiked {points : List TemperaturePoint} :
    ∀ q ∈ p.despiked points, q.rate.isFinite = true := by
  have hraw : ∀ q ∈ p.raw points, q.rate.isFinite = true :=
    fun q hq => (Rise.isFinite_of_mem_estimate hq).1
  unfold despiked
  split
  · rename_i band hband
    have hvalid := p.isValid.band_valid band hband
    refine Rise.forall_despike (P := fun x => x.isFinite = true) ?_
    intro q hq
    rcases band.clamp_eq_or q.rate with h | h | h
    · rw [h]
      exact hraw q hq
    · rw [h]
      exact hvalid.low_isFinite
    · rw [h]
      exact hvalid.high_isFinite
  · exact hraw

/-- **What is displayed is finite**, whatever the curve. -/
theorem isFinite_of_mem_rates {points : List TemperaturePoint} {q : RatePoint}
    (hq : q ∈ p.rates points) : q.rate.isFinite = true ∧ q.temperature.isFinite = true := by
  constructor
  · obtain ⟨a, b, hweights⟩ := p.exists_weights
    exact Rise.forall_smooth (P := fun x => x.isFinite = true)
      (fun _ _ => hweights.isFinite_blend) p.isFinite_of_mem_despiked q hq
  · -- the temperature is that of an estimate
    have hplace : q.place ∈ (p.raw points).map RatePoint.place := by
      rw [← map_place_rates]
      exact List.mem_map_of_mem hq
    obtain ⟨r, hr, hsame⟩ := List.mem_map.mp hplace
    have htemperature : r.temperature = q.temperature := congrArg TemperaturePoint.temperature hsame
    rw [← htemperature]
    exact (Rise.isFinite_of_mem_estimate hr).2

end RisePipeline

/--
**Settings that pass `validate` give a rate of rise for every curve, and every rate and every
temperature in it is finite.** Nothing is asked of the curve: its times and temperatures may be out
of order, repeated, NaN, infinite or as large as they come.
-/
theorem RiseSettings.rates_isFinite (settings : RiseSettings) (points : List TemperaturePoint)
    (h : settings.validate = .ok ()) :
    ∃ out, settings.rates points = .ok out ∧
      ∀ q ∈ out, q.rate.isFinite = true ∧ q.temperature.isFinite = true :=
  ⟨_, rates_of_validate h points, fun _ hq => RisePipeline.isFinite_of_mem_rates ⟨settings, h⟩ hq⟩

/-- The largest rate there is, twice, among points with a NaN and an infinity. -/
theorem RiseSettings.rates_isFinite_largest :
    let settings : RiseSettings := { window := 1, alpha := 0.02, band := none }
    let largest : Single := ofBits 0x7f7fffff
    let points : List TemperaturePoint :=
      [⟨0, Binary.neg largest⟩, ⟨60, 0⟩, ⟨120, largest⟩, ⟨.nan, 20⟩, ⟨180, .infinity true⟩]
    settings.validate = .ok () ∧
      ∃ out, settings.rates points = .ok out ∧
        (∀ q ∈ out, q.rate.isFinite = true ∧ q.temperature.isFinite = true) ∧
        out.map RatePoint.rate = [largest, largest] := by
  intro settings largest points
  have hvalid : settings.validate = .ok () := by decide +kernel
  obtain ⟨out, hout, hfinite⟩ := rates_isFinite settings points hvalid
  have hrates : (settings.rates points).map (·.map RatePoint.rate) = .ok [largest, largest] := by
    decide +kernel
  rw [hout] at hrates
  exact ⟨hvalid, out, hout, hfinite, Except.ok.inj hrates⟩

namespace RisePipeline

/-! ## Curves that grow -/

variable (p : RisePipeline)

theorem isPrefix_raw (points more : List TemperaturePoint) :
    p.raw points <+: p.raw (points ++ more) :=
  Rise.isPrefix_estimate _ _ points more

theorem isPrefix_dropLast_rates (points more : List TemperaturePoint) :
    (p.rates points).dropLast <+: p.rates (points ++ more) := by
  have hdespiked : (p.despiked points).dropLast <+: p.despiked (points ++ more) := by
    unfold despiked
    split
    · exact Rise.isPrefix_despike _ (p.isPrefix_raw points more)
    · exact (List.dropLast_prefix _).trans (p.isPrefix_raw points more)
  rw [rates_eq, rates_eq, Rise.dropLast_smooth]
  exact Rise.isPrefix_smooth _ hdespiked

theorem isPrefix_rates_of_band_eq_none (hband : p.settings.band = none)
    (points more : List TemperaturePoint) : p.rates points <+: p.rates (points ++ more) := by
  have hdespiked : ∀ points, p.despiked points = p.raw points := by
    intro points
    unfold despiked
    rw [hband]
  rw [rates_eq, rates_eq, hdespiked, hdespiked]
  exact Rise.isPrefix_smooth _ (p.isPrefix_raw points more)

theorem rates_eq_of_raw_eq {points points' : List TemperaturePoint}
    (h : p.raw points' = p.raw points) : p.rates points' = p.rates points := by
  rw [rates_eq, rates_eq]
  unfold despiked
  rw [h]

/--
**New readings do not rewrite what is displayed.**

Let a curve grow. Its estimates stay and new ones follow. Then nothing displayed is lost, and no
point of it moves to another time or temperature. Without a band all of it stays; with a band all of
it stays but for the last rate; and if no new estimate came, nothing changes at all.
-/
theorem displayed_kept (points more : List TemperaturePoint) :
    ∃ new, p.raw (points ++ more) = p.raw points ++ new ∧
      (p.rates points).length ≤ (p.rates (points ++ more)).length ∧
      (p.rates points).map RatePoint.place <+: (p.rates (points ++ more)).map RatePoint.place ∧
      (p.settings.band = none → p.rates points <+: p.rates (points ++ more)) ∧
      (p.rates points).dropLast <+: p.rates (points ++ more) ∧
      (new = [] → p.rates (points ++ more) = p.rates points) := by
  obtain ⟨new, hnew⟩ := p.isPrefix_raw points more
  refine ⟨new, hnew.symm, ?_, ?_, ?_, p.isPrefix_dropLast_rates points more, ?_⟩
  · rw [length_rates, length_rates]
    exact (p.isPrefix_raw points more).length_le
  · rw [map_place_rates, map_place_rates]
    exact (p.isPrefix_raw points more).map _
  · intro hband
    exact p.isPrefix_rates_of_band_eq_none hband points more
  · intro hnone
    rw [hnone, List.append_nil] at hnew
    exact p.rates_eq_of_raw_eq hnew.symm

end RisePipeline

end RoastTelemetry
