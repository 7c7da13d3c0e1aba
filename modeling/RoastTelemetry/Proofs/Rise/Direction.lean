import RoastTelemetry.Proofs.Binary.Bounds
import RoastTelemetry.Proofs.Rise.Pipeline

/-!
# Which way the beans go

A difference of two temperatures keeps its sign through every rounding on the way to the display, so
beans that never cool never show a falling rate, nor beans that never warm a rising one. Windows
that take no time are skipped, and a difference that overflows is dropped. Clamping keeps the sign
if the end of the band on that side does, the median chooses among rates, and the weights of
smoothing are not negative.
-/

namespace RoastTelemetry

open Binary

variable {down : Bool}

/-! ## Through the stages -/

/-- The end of a band that rates in a direction are clamped to. -/
def SpikeBand.ahead (b : SpikeBand) (down : Bool) : Single := if down then b.low else b.high

theorem SpikeBand.toward_clamp {b : SpikeBand} {x : Single} (hx : Toward down 0 x)
    (hahead : Toward down 0 (b.ahead down)) : Toward down 0 (b.clamp x) := by
  unfold clamp
  cases down with
  | false =>
      have hmax := le_trans hx (le_max_left b.low (isNaN_of_le hx).2)
      rcases min_eq_or (x.max b.low) b.high with heq | heq
      · rwa [heq]
      · rwa [heq]
  | true =>
      have hmax : x.max b.low ≤ 0 := by
        rcases max_eq_or x b.low with heq | heq
        · rwa [heq]
        · rwa [heq]
      exact le_trans (min_le_left b.high (isNaN_of_le hmax).1) hmax

theorem Rise.Weights.toward_blend {alpha before rate : Single} {a b : ℚ}
    (h : Rise.Weights alpha a b) (hb : before.isFinite = true) (hr : rate.isFinite = true)
    (hbefore : Toward down 0 before) (hrate : Toward down 0 rate) :
    Toward down 0 (Rise.blend alpha before rate) := by
  have hdb := denotes_value hb
  have hdr := denotes_value hr
  refine (h.rounds_blend hdb hdr).toward ?_
  have hs := (denotes_zero.toward_iff hdb).mp hbefore
  have hr := (denotes_zero.toward_iff hdr).mp hrate
  have hzero : Rise.weighted a b 0 0 = 0 := by
    unfold Rise.weighted
    simp
  rw [← hzero]
  cases down with
  | false => exact h.weighted_mono hr hs
  | true => exact h.weighted_mono hr hs

namespace Rise

/-- The minutes to divide by are more than none. -/
theorem pos_of_elapsed {elapsed : Double} {s : ℚ} (helapsed : ¬elapsed ≤ 0)
    (hs : (elapsed / secondsPerMinute).Denotes s) (hs0 : s ≠ 0) : 0 < s := by
  have he := denotes_value (isFinite_of_div hs.isFinite_eq)
  have hpos : 0 ≤ elapsed.value := by
    rw [he.le_iff denotes_zero] at helapsed
    exact (not_le.mp helapsed).le
  have hquotient := he.div denotes_secondsPerMinute (by norm_num)
  have hnonneg := rounds_zero.le hquotient (div_nonneg hpos (by norm_num))
  exact lt_of_le_of_ne ((denotes_zero.le_iff hs).mp hnonneg) hs0.symm

/-- **A difference that can be displayed has the sign of the change.** -/
theorem toward_differenceRate? {start stop : TemperaturePoint} {rate : Double}
    (hchange : Toward down start.temperature stop.temperature)
    (h : differenceRate? start stop = some rate) (hfinite : rate.narrow.isFinite = true) :
    Toward down 0 rate.narrow := by
  have hrate := isFinite_of_convert hfinite
  unfold differenceRate? at h
  dsimp only at h
  split at h
  · cases h
  · rename_i helapsed
    obtain rfl := Option.some.inj h
    have hdifference := isFinite_of_convert (isFinite_of_div hrate)
    obtain ⟨hstop, hstart⟩ := isFinite_of_sub hdifference
    have hb := denotes_value hstop
    have ha := denotes_value hstart
    have hsign : Toward down 0 (stop.temperature.value - start.temperature.value) := by
      have hmap := ((ha.toward_iff hb).mp hchange).map
        (g := fun r => r - start.temperature.value) fun hle => sub_le_sub_right hle _
      rwa [sub_self] at hmap
    obtain ⟨n, hn, hnsign⟩ := (hb.sub ha).exists_toward hdifference hsign
    rcases divisor_of_isFinite hrate with ⟨s, hs, hs0⟩ | hzero
    · have hpos := pos_of_elapsed helapsed hs hs0
      have hmap := hnsign.map (g := fun r => r / s) fun hle =>
        div_le_div_of_nonneg_right hle hpos.le
      rw [zero_div] at hmap
      obtain ⟨q, hq, hqsign⟩ := (hn.widen.div hs hs0).exists_toward hrate hmap
      exact (hq.convert .single).toward hqsign
    · -- an infinite time leaves nothing of a finite change
      exact (hzero.convert .single).toward (toward_refl down 0)

/-- What the difference over any window keeps, all estimates keep. -/
theorem toward_of_mem_estimate {w : Nat} {points : List TemperaturePoint} (hw : 0 < w)
    (hcurve : points.Pairwise fun a b => Toward down a.temperature b.temperature) :
    ∀ q ∈ estimate .windowedDifference w points, Toward down 0 q.rate := by
  intro q hq
  obtain ⟨i, start, stop, rate, hstart, hstop, hrate, hfinite, rfl⟩ := exists_of_mem_estimate hq
  obtain ⟨hi, rfl⟩ := List.getElem?_eq_some_iff.mp hstart
  obtain ⟨hj, rfl⟩ := List.getElem?_eq_some_iff.mp hstop
  have hchange := List.pairwise_iff_getElem.mp hcurve i (i + w) hi hj (by omega)
  exact toward_differenceRate? hchange hrate hfinite

end Rise

/-! ## The displayed rates -/

namespace RisePipeline

variable (p : RisePipeline) {points : List TemperaturePoint}

theorem toward_of_mem_despiked (hmethod : p.settings.method = .windowedDifference)
    (hband : ∀ band ∈ p.settings.band, Toward down 0 (band.ahead down))
    (hcurve : points.Pairwise fun a b => Toward down a.temperature b.temperature) :
    ∀ q ∈ p.despiked points, Toward down 0 q.rate := by
  have hraw : ∀ q ∈ p.raw points, Toward down 0 q.rate := by
    unfold raw
    rw [hmethod]
    exact Rise.toward_of_mem_estimate p.window_pos hcurve
  unfold despiked
  cases h : p.settings.band with
  | none => exact hraw
  | some band =>
      exact Rise.forall_despike fun q hq => SpikeBand.toward_clamp (hraw q hq) (hband band h)

theorem toward_of_mem_rates (down : Bool) (hmethod : p.settings.method = .windowedDifference)
    (hband : ∀ band ∈ p.settings.band, Toward down 0 (band.ahead down))
    (hcurve : points.Pairwise fun a b => Toward down a.temperature b.temperature) :
    ∀ q ∈ p.rates points, Toward down 0 q.rate := by
  obtain ⟨a, b, hweights⟩ := p.exists_weights
  have hdespiked : ∀ q ∈ p.despiked points, q.rate.isFinite = true ∧ Toward down 0 q.rate :=
    fun q hq => ⟨p.isFinite_of_mem_despiked q hq,
      p.toward_of_mem_despiked hmethod hband hcurve q hq⟩
  rw [rates_eq]
  intro q hq
  refine (Rise.forall_smooth (P := fun x => x.isFinite = true ∧ Toward down 0 x) ?_ hdespiked q
    hq).2
  intro before rate hbefore hrate
  exact ⟨hweights.isFinite_blend hbefore.1 hrate.1,
    hweights.toward_blend hbefore.1 hrate.1 hbefore.2 hrate.2⟩

/--
**A warming bean never reads as cooling, nor a cooling one as warming.**

With differences over the window, no rate of a curve that never falls is below zero, unless the
whole band is; and none of a curve that never rises is above it, unless the whole band is. Times may
stand still or run backwards, and differences may overflow.
-/
theorem rates_keep_direction (hmethod : p.settings.method = .windowedDifference)
    (points : List TemperaturePoint) :
    ((∀ band ∈ p.settings.band, 0 ≤ band.high) →
      points.Pairwise (fun a b => a.temperature ≤ b.temperature) →
        ∀ q ∈ p.rates points, 0 ≤ q.rate) ∧
    ((∀ band ∈ p.settings.band, band.low ≤ 0) →
      points.Pairwise (fun a b => b.temperature ≤ a.temperature) →
        ∀ q ∈ p.rates points, q.rate ≤ 0) :=
  ⟨p.toward_of_mem_rates false hmethod, p.toward_of_mem_rates true hmethod⟩

/-- A jump that overflows, a time that is read twice, a rest and a jump that the band cuts off. -/
theorem rates_keep_direction_of_jumps :
    let p : RisePipeline := ⟨{ window := 1, alpha := 0.25 }, by decide +kernel⟩
    let warming : List TemperaturePoint :=
      [⟨0, -3e38⟩, ⟨1, 3e38⟩, ⟨1, 3e38⟩, ⟨61, 3e38⟩, ⟨121, 3.1e38⟩]
    let cooling : List TemperaturePoint := warming.map fun q => ⟨q.time, -q.temperature⟩
    p.settings.method = .windowedDifference ∧
      (∀ band ∈ p.settings.band, 0 ≤ band.high) ∧ (∀ band ∈ p.settings.band, band.low ≤ 0) ∧
      warming.Pairwise (fun a b => a.temperature ≤ b.temperature) ∧
      cooling.Pairwise (fun a b => b.temperature ≤ a.temperature) ∧
      (p.rates warming).length = 2 ∧ (p.rates cooling).length = 2 ∧
      (∀ q ∈ p.rates warming, 0 ≤ q.rate) ∧ ∀ q ∈ p.rates cooling, q.rate ≤ 0 := by
  intro p warming cooling
  have hmethod : p.settings.method = .windowedDifference := rfl
  have hhigh : ∀ band ∈ p.settings.band, 0 ≤ band.high := by
    rintro band ⟨⟩
    decide +kernel
  have hlow : ∀ band ∈ p.settings.band, band.low ≤ 0 := by
    rintro band ⟨⟩
    decide +kernel
  have hwarming : warming.Pairwise (fun a b => a.temperature ≤ b.temperature) := by decide +kernel
  have hcooling : cooling.Pairwise (fun a b => b.temperature ≤ a.temperature) := by decide +kernel
  exact ⟨hmethod, hhigh, hlow, hwarming, hcooling, by decide +kernel, by decide +kernel,
    (rates_keep_direction p hmethod warming).1 hhigh hwarming,
    (rates_keep_direction p hmethod cooling).2 hlow hcooling⟩

end RisePipeline

end RoastTelemetry
