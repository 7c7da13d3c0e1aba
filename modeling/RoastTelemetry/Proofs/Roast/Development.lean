import RoastTelemetry.Proofs.Binary.Bounds
import RoastTelemetry.Roast.Summary

/-!
# The share of development

A share is reported exactly for a first crack within the roast. The time that is left after it lies
between nothing and the whole roast, and rounding moves neither of these, so the share lies between
zero and one, however the difference and the quotient are rounded.

That takes a length to divide by. The length of a roast is a difference of timestamps, and finite
timestamps may be too far apart for a double. The guard lets an infinite length pass, and what is
reported is then no number.
-/

namespace RoastTelemetry.Summary

open Binary

variable {total firstCrack : Double} {ratio : Single} {samples : List Sample}
  {marked : Option Double} {thresholds : Thresholds}

/-- A first crack within a roast of some length. -/
structure Within (total firstCrack : Double) : Prop where
  pos : 0 < total
  nonneg : 0 ≤ firstCrack
  le : firstCrack ≤ total

theorem ratio?_eq_some_iff : ratio? total firstCrack = some ratio ↔
    Within total firstCrack ∧ ((total - firstCrack) / total).narrow = ratio := by
  unfold ratio?
  constructor
  · intro h
    split at h
    · rename_i hwithin
      exact ⟨⟨hwithin.1, hwithin.2.1, hwithin.2.2⟩, Option.some.inj h⟩
    · cases h
  · rintro ⟨hwithin, rfl⟩
    rw [if_pos ⟨hwithin.pos, hwithin.nonneg, hwithin.le⟩]

/-- **A share of a finite length lies between zero and one.** -/
theorem Within.ratio_le_one (h : Within total firstCrack) (htotal : total.isFinite = true) :
    0 ≤ ((total - firstCrack) / total).narrow ∧ ((total - firstCrack) / total).narrow ≤ 1 := by
  have ht := denotes_value htotal
  have hc := denotes_value (isFinite_of_between h.nonneg h.le denotes_zero.isFinite_eq htotal)
  have hpos := (denotes_zero.lt_iff ht).mp h.pos
  have hnonneg := (denotes_zero.le_iff hc).mp h.nonneg
  have hle := (hc.le_iff ht).mp h.le
  obtain ⟨rest, hrest, hlow, hhigh⟩ := (ht.sub hc).liesIn denotes_zero.fits ht.fits
    (sub_nonneg.mpr hle) (sub_le_self _ hnonneg)
  obtain ⟨share, hshare, hlow', hhigh'⟩ := (hrest.div ht hpos.ne').liesIn denotes_zero.fits
    denotes_one.fits (div_nonneg hlow hpos.le) ((div_le_one hpos).mpr hhigh)
  exact ((hshare.convert .single).liesIn denotes_zero.fits denotes_one.fits hlow' hhigh').le_le
    denotes_zero denotes_one

/-- A share of an infinite length is a NaN, whether or not first crack is as late. -/
theorem Within.ratio_eq_nan (h : Within total firstCrack) (htotal : total.isFinite = false) :
    ((total - firstCrack) / total).narrow = nan := by
  obtain rfl := eq_infinity_of_le (le_of_lt h.pos) denotes_zero.isFinite_eq htotal
  cases hcrack : firstCrack.isFinite with
  | true =>
      rw [infinity_sub hcrack]
      rfl
  | false =>
      obtain rfl := eq_infinity_of_le h.nonneg denotes_zero.isFinite_eq hcrack
      rfl

theorem ratio_of_ratio? (h : ratio? total firstCrack = some ratio) :
    (0 ≤ ratio ∧ ratio ≤ 1 ↔ total.isFinite = true) ∧ (total.isFinite = false → ratio = nan) := by
  obtain ⟨hwithin, rfl⟩ := ratio?_eq_some_iff.mp h
  refine ⟨⟨?_, hwithin.ratio_le_one⟩, hwithin.ratio_eq_nan⟩
  rintro ⟨hnonneg, -⟩
  by_contra htotal
  rw [hwithin.ratio_eq_nan (Bool.eq_false_iff.mpr htotal)] at hnonneg
  cases (isNaN_of_le hnonneg).2

/-! ## A whole history -/

/-- What is reported is the share after the reported first crack in the reported length. -/
theorem developmentRatio_ofSamples (samples : List Sample) (marked : Option Double)
    (thresholds : Thresholds) :
    let summary := ofSamples samples marked thresholds
    summary.developmentRatio =
      summary.totalTime.bind fun total => summary.firstCrack.bind (ratio? total) := by
  unfold ofSamples
  cases samples.head? with
  | none => rfl
  | some first =>
      cases samples.getLast? with
      | none => rfl
      | some last => rfl

theorem exists_of_totalTime (h : (ofSamples samples marked thresholds).totalTime = some total) :
    ∃ first ∈ samples, ∃ last ∈ samples, last.timestamp - first.timestamp = total := by
  unfold ofSamples at h
  split at h
  · rename_i first last hfirst hlast
    exact ⟨first, List.mem_of_head? hfirst, last, List.mem_of_getLast? hlast, Option.some.inj h⟩
  · cases h

/-- Timestamps that are not negative are never too far apart. -/
theorem isFinite_totalTime
    (hclock : ∀ s ∈ samples, s.timestamp.isFinite = true ∧ 0 ≤ s.timestamp)
    (h : (ofSamples samples marked thresholds).totalTime = some total) : total.isFinite = true := by
  obtain ⟨first, hfirst, last, hlast, rfl⟩ := exists_of_totalTime h
  have hf := denotes_value (hclock first hfirst).1
  have hl := denotes_value (hclock last hlast).1
  have hf0 := (denotes_zero.le_iff hf).mp (hclock first hfirst).2
  have hl0 := (denotes_zero.le_iff hl).mp (hclock last hlast).2
  obtain ⟨r, hr, -⟩ := (hl.sub hf).liesIn hf.neg.fits hl.fits (by linarith) (by linarith)
  exact hr.isFinite_eq

/--
**When the share of development is one.**

A share is present exactly if first crack is known and lies within the roast. It is a number from
zero to one exactly if the length of the roast is finite, as it is for finite timestamps none of
which is negative. Others can be so far apart that the length is infinite, and the share is a NaN.
-/
theorem developmentRatio_iff (samples : List Sample) (marked : Option Double)
    (thresholds : Thresholds) :
    let summary := ofSamples samples marked thresholds
    (summary.developmentRatio.isSome = true ↔
      ∃ total firstCrack, summary.totalTime = some total ∧ summary.firstCrack = some firstCrack ∧
        Within total firstCrack) ∧
    (∀ total ∈ summary.totalTime, ∀ ratio ∈ summary.developmentRatio,
      (0 ≤ ratio ∧ ratio ≤ 1 ↔ total.isFinite = true) ∧ (total.isFinite = false → ratio = nan)) ∧
    ((∀ s ∈ samples, s.timestamp.isFinite = true ∧ 0 ≤ s.timestamp) →
      ∀ total ∈ summary.totalTime, total.isFinite = true) := by
  intro summary
  have hratio : summary.developmentRatio = _ := developmentRatio_ofSamples samples marked thresholds
  refine ⟨?_, ?_, fun hclock total htotal => isFinite_totalTime hclock htotal⟩
  · simp only [hratio, Option.isSome_iff_exists, Option.bind_eq_some_iff]
    constructor
    · rintro ⟨ratio, total, htotal, firstCrack, hcrack, hshare⟩
      exact ⟨total, firstCrack, htotal, hcrack, (ratio?_eq_some_iff.mp hshare).1⟩
    · rintro ⟨total, firstCrack, htotal, hcrack, hwithin⟩
      exact ⟨_, total, htotal, firstCrack, hcrack, ratio?_eq_some_iff.mpr ⟨hwithin, rfl⟩⟩
  · intro total htotal ratio h
    rw [hratio, htotal, Option.bind_some] at h
    obtain ⟨firstCrack, -, hshare⟩ := Option.bind_eq_some_iff.mp h
    exact ratio_of_ratio? hshare

/-- Two timestamps that are finite, with a distance that is not: a first crack marked at five
seconds passes for one within the roast, and its share is a NaN. -/
theorem developmentRatio_overflowing :
    let samples : List Sample := [{ timestamp := -1e308 }, { timestamp := 1e308 }]
    let summary := ofSamples samples (some 5) {}
    (∀ s ∈ samples, s.timestamp.isFinite = true) ∧
      summary.totalTime = some (infinity false) ∧ summary.firstCrack = some 5 ∧
      summary.developmentRatio = some nan ∧ ¬(0 : Single) ≤ nan := by
  decide +kernel

end RoastTelemetry.Summary
