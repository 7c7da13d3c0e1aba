import RoastTelemetry.Proofs.Binary.Ordered
import RoastTelemetry.Proofs.Rise.Windows
import RoastTelemetry.Rise.SpikeBand

/-!
# What despiking keeps

Clamping and the median choose among numbers that are there and compute none, so what holds of the
rates and of both bounds holds of what comes out. The median looks one point ahead: the last point
of a list is the only one that later points can change, and neither its time nor its temperature.
-/

namespace RoastTelemetry

open Binary

namespace SpikeBand

variable {b : SpikeBand}

/-- A rate within the band. -/
def Contains (b : SpikeBand) (x : Single) : Prop := b.low ≤ x ∧ x ≤ b.high

/-- What `validate` accepts: finite bounds in order. -/
structure Valid (b : SpikeBand) : Prop where
  low_isFinite : b.low.isFinite = true
  high_isFinite : b.high.isFinite = true
  low_le_high : b.low ≤ b.high

theorem validate_eq_ok_iff : b.validate = .ok () ↔ b.Valid := by
  unfold validate
  constructor
  · intro h
    split at h
    · rename_i hbounds
      simp only [Bool.and_eq_true, decide_eq_true_eq] at hbounds
      exact ⟨hbounds.1.1, hbounds.1.2, hbounds.2⟩
    · cases h
  · intro h
    rw [if_pos]
    simp only [Bool.and_eq_true, decide_eq_true_eq]
    exact ⟨⟨h.low_isFinite, h.high_isFinite⟩, h.low_le_high⟩

theorem clamp_eq_or (b : SpikeBand) (x : Single) :
    b.clamp x = x ∨ b.clamp x = b.low ∨ b.clamp x = b.high := by
  unfold clamp
  rcases min_eq_or (x.max b.low) b.high with h | h
  · rcases max_eq_or x b.low with h' | h'
    · exact .inl (h.trans h')
    · exact .inr (.inl (h.trans h'))
  · exact .inr (.inr h)

/-- **Clamping leads into the band**, from infinities and NaN too. -/
theorem Valid.contains_clamp (h : b.Valid) (x : Single) : b.Contains (b.clamp x) := by
  constructor
  · unfold clamp
    rcases min_eq_or (x.max b.low) b.high with heq | heq
    · rw [heq]
      exact le_max_right x (isNaN_of_isFinite h.low_isFinite)
    · rw [heq]
      exact h.low_le_high
  · exact min_le_right _ (isNaN_of_isFinite h.high_isFinite)

theorem Valid.isFinite_of_contains (h : b.Valid) {x : Single} (hx : b.Contains x) :
    x.isFinite = true :=
  isFinite_of_between hx.1 hx.2 h.low_isFinite h.high_isFinite

/-- What lies above the band goes to its upper end. -/
theorem Valid.high_le_clamp (h : b.Valid) {x : Single} (hx : b.high ≤ x) :
    b.high ≤ b.clamp x := by
  unfold clamp
  rcases min_eq_or (x.max b.low) b.high with heq | heq
  · rw [heq]
    exact le_trans hx (le_max_left _ (isNaN_of_le hx).2)
  · rw [heq]
    exact le_self (isNaN_of_isFinite h.high_isFinite)

/-- What lies below the band goes to its lower end. -/
theorem Valid.clamp_le_low (h : b.Valid) {x : Single} (hx : x ≤ b.low) : b.clamp x ≤ b.low := by
  have hmax : x.max b.low ≤ b.low := by
    rcases max_eq_or x b.low with heq | heq
    · rwa [heq]
    · rw [heq]
      exact le_self (isNaN_of_isFinite h.low_isFinite)
  exact le_trans (min_le_left _ (isNaN_of_le hmax).1) hmax

end SpikeBand

namespace Rise

/-! ## The median of three -/

theorem median_eq_or (a b c : Single) : median a b c = a ∨ median a b c = b ∨ median a b c = c := by
  unfold median
  rcases min_eq_or (a.max b) ((a.min b).max c) with h | h
  · rw [h]
    rcases max_eq_or a b with ha | hb
    · exact .inl ha
    · exact .inr (.inl hb)
  · rw [h]
    rcases max_eq_or (a.min b) c with hab | hc
    · rw [hab]
      rcases min_eq_or a b with ha | hb
      · exact .inl ha
      · exact .inr (.inl hb)
    · exact .inr (.inr hc)

variable {points : List RatePoint}

/-- The median of a point with its neighbours has what all rates have. -/
theorem forall_medianFrom {P : Single → Prop} (hpoints : ∀ p ∈ points, P p.rate)
    {before : Option RatePoint} (hbefore : ∀ p ∈ before, P p.rate) :
    ∀ p ∈ medianFrom before points, P p.rate := by
  induction points generalizing before with
  | nil => exact fun p hp => absurd hp List.not_mem_nil
  | cons p rest ih =>
      have hp := hpoints p List.mem_cons_self
      cases rest with
      | nil => exact hpoints
      | cons q rest =>
          have hq := hpoints q (List.mem_cons_of_mem p List.mem_cons_self)
          intro r hr
          rcases List.mem_cons.mp hr with rfl | hr
          · cases before with
            | none => exact hp
            | some b =>
                have hb := hbefore b rfl
                have hmedian : P (median b.rate p.rate q.rate) := by
                  rcases median_eq_or b.rate p.rate q.rate with h | h | h
                  · rwa [h]
                  · rwa [h]
                  · rwa [h]
                exact hmedian
          · refine ih (fun p hp => hpoints p (List.mem_cons_of_mem _ hp)) ?_ r hr
            intro p' hp'
            obtain rfl := Option.some.inj hp'
            exact hp

theorem forall_despike {P : Single → Prop} {band : SpikeBand}
    (hclamp : ∀ p ∈ points, P (band.clamp p.rate)) : ∀ p ∈ despike band points, P p.rate := by
  refine forall_medianFrom ?_ (fun p hp => nomatch hp)
  intro p hp
  obtain ⟨q, hq, rfl⟩ := List.mem_map.mp hp
  exact hclamp q hq

/-- The median moves no point. -/
theorem map_place_medianFrom (before : Option RatePoint) (points : List RatePoint) :
    (medianFrom before points).map RatePoint.place = points.map RatePoint.place := by
  induction points generalizing before with
  | nil => rfl
  | cons p rest ih =>
      cases rest with
      | nil => rfl
      | cons q rest =>
          have htail := ih (some p)
          unfold medianFrom
          rw [List.map_cons, htail]
          rfl

theorem map_place_despike (band : SpikeBand) (points : List RatePoint) :
    (despike band points).map RatePoint.place = points.map RatePoint.place := by
  unfold despike
  rw [map_place_medianFrom, List.map_map]
  rfl

/-! ## More points afterwards -/

/-- All but the last point have both neighbours. -/
theorem isPrefix_medianFrom (before : Option RatePoint) {points longer : List RatePoint}
    (h : points <+: longer) :
    (medianFrom before points).dropLast <+: medianFrom before longer := by
  obtain ⟨more, rfl⟩ := h
  induction points generalizing before with
  | nil => exact List.nil_prefix
  | cons p rest ih =>
      cases rest with
      | nil => exact List.nil_prefix
      | cons q rest =>
          have htail := ih (some p)
          have hne : medianFrom (some p) (q :: rest) ≠ [] := by
            rw [← List.length_pos_iff, length_medianFrom]
            exact Nat.succ_pos _
          rw [List.cons_append, List.cons_append] at *
          rw [medianFrom, medianFrom, List.dropLast_cons_of_ne_nil hne]
          exact List.cons_prefix_cons.mpr ⟨rfl, htail⟩

theorem isPrefix_despike (band : SpikeBand) {points longer : List RatePoint}
    (h : points <+: longer) : (despike band points).dropLast <+: despike band longer :=
  isPrefix_medianFrom none (h.map _)

end Rise

end RoastTelemetry
