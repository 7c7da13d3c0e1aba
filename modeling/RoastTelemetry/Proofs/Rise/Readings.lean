import RoastTelemetry.Proofs.Rise.Pipeline

/-!
# Which reading a rate belongs to

Windows that give no rate leave gaps, so the tenth rate need not belong to the tenth window. But the
windows are gone through in order, each rate takes over the point that ends its window, and neither
despiking nor smoothing moves a point. So the displayed rates stand at rising positions of the
curve, exactly those whose window has a rate, and each has the time and temperature found there.
-/

namespace RoastTelemetry

namespace Rise

variable {method : RiseMethod} {w : Nat} {points : List TemperaturePoint} {i : Nat} {q : RatePoint}

/-- `q` is the estimate at position `i`: the point there, with the rate over the window it ends. -/
structure EstimateAt (method : RiseMethod) (w : Nat) (points : List TemperaturePoint) (i : Nat)
    (q : RatePoint) : Prop where
  /-- The window begins in the curve. -/
  le : w ≤ i
  /-- Its rate is a finite single-precision number. -/
  exists_rate : ∃ start stop rate, points[i - w]? = some start ∧ points[i]? = some stop ∧
    windowRate? method start stop ((points.drop (i - w)).take (w + 1)) = some rate ∧
    rate.narrow.isFinite = true ∧ q = ⟨stop.time, stop.temperature, rate.narrow⟩

theorem EstimateAt.getElem?_eq (h : EstimateAt method w points i q) :
    points[i]? = some q.place := by
  obtain ⟨start, stop, rate, -, hstop, -, -, rfl⟩ := h.exists_rate
  exact hstop

theorem EstimateAt.lt_length (h : EstimateAt method w points i q) : i < points.length :=
  (List.getElem?_eq_some_iff.mp h.getElem?_eq).1

/-- Between the ends of a window there is an estimate if time passes and the rate is finite. -/
theorem exists_estimateAt_difference_iff :
    (∃ q, EstimateAt .windowedDifference w points i q) ↔
      w ≤ i ∧ ∃ start stop, points[i - w]? = some start ∧ points[i]? = some stop ∧
        ¬stop.time - start.time ≤ 0 ∧
        ((stop.temperature - start.temperature).widen /
          ((stop.time - start.time) / secondsPerMinute)).narrow.isFinite = true := by
  constructor
  · rintro ⟨q, hle, start, stop, rate, hstart, hstop, hrate, hfinite, -⟩
    refine ⟨hle, start, stop, hstart, hstop, ?_⟩
    unfold windowRate? differenceRate? at hrate
    dsimp only at hrate
    split at hrate
    · cases hrate
    · rename_i helapsed
      obtain rfl := Option.some.inj hrate
      exact ⟨helapsed, hfinite⟩
  · rintro ⟨hle, start, stop, hstart, hstop, helapsed, hfinite⟩
    exact ⟨_, hle, start, stop, _, hstart, hstop, if_neg helapsed, hfinite, rfl⟩

/-! ## Positions -/

theorem estimateAt_iff :
    EstimateAt method w points i q ↔
      ∃ r, (r, i) ∈ (rates method w points).zipIdx w ∧ ofRate? r = some q := by
  constructor
  · rintro ⟨hle, start, stop, rate, hstart, hstop, hrate, hfinite, rfl⟩
    have hi : i - w + w = i := Nat.sub_add_cancel hle
    refine ⟨(stop, some rate), ?_, ofRate?_eq_some_iff.mpr ⟨rate, rfl, hfinite, rfl⟩⟩
    rw [List.mem_zipIdx_iff_le_and_getElem?_sub]
    refine ⟨hle, (getElem?_rates _ _ _ _ _).mpr ⟨start, stop, hstart, ?_, ?_⟩⟩
    · dsimp only
      rwa [hi]
    · rw [hrate]
  · rintro ⟨r, hmem, hpoint⟩
    obtain ⟨hle, hr⟩ := List.mem_zipIdx_iff_le_and_getElem?_sub.mp hmem
    dsimp only at hle hr
    obtain ⟨start, stop, hstart, hstop, rfl⟩ := (getElem?_rates _ _ _ _ _).mp hr
    obtain ⟨rate, hrate, hfinite, rfl⟩ := ofRate?_eq_some_iff.mp hpoint
    rw [Nat.sub_add_cancel hle] at hstop
    exact ⟨hle, start, stop, rate, hstart, hstop, hrate, hfinite, rfl⟩

/-- The positions of the points that have an estimate. -/
def positions (method : RiseMethod) (w : Nat) (points : List TemperaturePoint) : List Nat :=
  (((rates method w points).zipIdx w).filter fun r => (ofRate? r.1).isSome).map Prod.snd

theorem pairwise_positions (method : RiseMethod) (w : Nat) (points : List TemperaturePoint) :
    (positions method w points).Pairwise (· < ·) := by
  unfold positions
  refine List.Pairwise.sublist (List.Sublist.map Prod.snd List.filter_sublist) ?_
  rw [List.zipIdx_map_snd]
  exact List.pairwise_lt_range'

theorem mem_positions_iff :
    i ∈ positions method w points ↔ ∃ q, EstimateAt method w points i q := by
  unfold positions
  rw [List.mem_map]
  constructor
  · rintro ⟨⟨r, j⟩, hr, rfl⟩
    obtain ⟨hmem, hsome⟩ := List.mem_filter.mp hr
    obtain ⟨q, hq⟩ := Option.isSome_iff_exists.mp hsome
    exact ⟨q, estimateAt_iff.mpr ⟨r, hmem, hq⟩⟩
  · rintro ⟨q, hq⟩
    obtain ⟨r, hmem, hr⟩ := estimateAt_iff.mp hq
    exact ⟨(r, i), List.mem_filter.mpr ⟨hmem, by rw [hr]; rfl⟩, rfl⟩

/-- What a list is mapped to, entry by entry, beside the positions it comes from. -/
theorem forall₂_filterMap {α β : Type} (g : α → Option β) (l : List (α × Nat)) :
    List.Forall₂ (fun i y => ∃ x, (x, i) ∈ l ∧ g x = some y)
      ((l.filter fun q => (g q.1).isSome).map Prod.snd) (l.filterMap fun q => g q.1) := by
  induction l with
  | nil => exact List.Forall₂.nil
  | cons r rest ih =>
      obtain ⟨x, i⟩ := r
      have hrest : ∀ j y, (∃ z, (z, j) ∈ rest ∧ g z = some y) →
          ∃ z, (z, j) ∈ (x, i) :: rest ∧ g z = some y := by
        rintro j y ⟨z, hz, hy⟩
        exact ⟨z, List.mem_cons_of_mem _ hz, hy⟩
      cases hx : g x with
      | none =>
          rw [List.filter_cons_of_neg (by simp [hx]),
            List.filterMap_cons_none (f := fun q : α × Nat => g q.1) hx]
          exact ih.imp hrest
      | some y =>
          rw [List.filter_cons_of_pos (by simp [hx]),
            List.filterMap_cons_some (f := fun q : α × Nat => g q.1) hx]
          exact .cons ⟨x, List.mem_cons_self, hx⟩ (ih.imp hrest)

/-- **The estimates are those at the positions, one each, in the same order.** -/
theorem forall₂_positions_estimate (method : RiseMethod) (w : Nat)
    (points : List TemperaturePoint) :
    List.Forall₂ (EstimateAt method w points) (positions method w points)
      (estimate method w points) := by
  have hestimate : estimate method w points =
      ((rates method w points).zipIdx w).filterMap fun r => ofRate? r.1 := by
    rw [estimate_eq, ← Function.comp_def ofRate?, ← List.filterMap_map, List.zipIdx_map_fst]
  rw [hestimate]
  exact (forall₂_filterMap ofRate? _).imp fun i q => estimateAt_iff.mpr

theorem map_place_estimate (method : RiseMethod) (w : Nat) (points : List TemperaturePoint) :
    (estimate method w points).map (fun q => some q.place) =
      (positions method w points).map (points[·]?) := by
  rw [← List.forall₂_eq_eq_eq, List.forall₂_map_left_iff, List.forall₂_map_right_iff]
  exact (forall₂_positions_estimate method w points).flip.imp fun q i h => h.getElem?_eq.symm

end Rise

namespace RisePipeline

variable (p : RisePipeline)

/-- The positions of the points that are displayed. -/
def positions (points : List TemperaturePoint) : List Nat :=
  Rise.positions p.settings.method p.settings.window.toNat points

theorem map_place_rates_eq (points : List TemperaturePoint) :
    (p.rates points).map (fun q => some q.place) = (p.positions points).map (points[·]?) := by
  have hplaces := congrArg (List.map some) (p.map_place_rates points)
  rw [List.map_map, List.map_map] at hplaces
  exact hplaces.trans (Rise.map_place_estimate _ _ points)

/-- What the points of a curve have in order, those displayed have in order. -/
theorem pairwise_rates {R : TemperaturePoint → TemperaturePoint → Prop}
    {points : List TemperaturePoint} (h : points.Pairwise R) :
    (p.rates points).Pairwise fun a b => R a.place b.place := by
  have hpositions : ((p.positions points).map (points[·]?)).Pairwise
      fun x y => ∀ a ∈ x, ∀ b ∈ y, R a b := by
    rw [List.pairwise_map]
    refine (Rise.pairwise_positions _ _ points).imp ?_
    intro i j hij a ha b hb
    obtain ⟨hi, rfl⟩ := List.getElem?_eq_some_iff.mp ha
    obtain ⟨hj, rfl⟩ := List.getElem?_eq_some_iff.mp hb
    exact List.pairwise_iff_getElem.mp h i j hi hj hij
  rw [← map_place_rates_eq, List.pairwise_map] at hpositions
  exact hpositions.imp fun hab => hab _ rfl _ rfl

theorem length_rates_le (points : List TemperaturePoint) :
    (p.rates points).length ≤ points.length - p.settings.window.toNat := by
  rw [length_rates, ← Rise.length_rates p.settings.method]
  exact List.length_filterMap_le _ _

/--
**Every displayed rate belongs to the right reading.**

The displayed points stand at rising positions of the curve, none of them in front of the first
whole window, and each has the time and the temperature of the reading at its position. A position
is among them exactly if the window that ends there has a finite rate; between the ends of a window
this is so if time passes, or cannot be compared, and the quotient is finite in single precision.
What is estimated, the window's own rate stands with the reading that ends it, and despiking and
smoothing neither add nor drop a point, nor move one. So there are no more points than whole
windows, and in a curve in order of time they are in order of time.
-/
theorem rates_at_readings (points : List TemperaturePoint) :
    let w := p.settings.window.toNat
    ∃ indices : List Nat,
      indices.Pairwise (· < ·) ∧
      (∀ i ∈ indices, w ≤ i ∧ i < points.length) ∧
      (p.rates points).map (fun q => some q.place) = indices.map (points[·]?) ∧
      List.Forall₂ (Rise.EstimateAt p.settings.method w points) indices (p.raw points) ∧
      (∀ i, i ∈ indices ↔ ∃ q, Rise.EstimateAt p.settings.method w points i q) ∧
      (p.settings.method = .windowedDifference → ∀ i, i ∈ indices ↔
        w ≤ i ∧ ∃ start stop, points[i - w]? = some start ∧ points[i]? = some stop ∧
          ¬stop.time - start.time ≤ 0 ∧
          ((stop.temperature - start.temperature).widen /
            ((stop.time - start.time) / Rise.secondsPerMinute)).narrow.isFinite = true) ∧
      (∀ band rates, (Rise.despike band rates).map RatePoint.place =
        rates.map RatePoint.place) ∧
      (∀ alpha rates, (Rise.smooth alpha rates).map RatePoint.place =
        rates.map RatePoint.place) ∧
      (p.rates points).length ≤ points.length - w ∧
      ((points.Pairwise fun a b => a.time ≤ b.time) →
        (p.rates points).Pairwise fun a b => a.time ≤ b.time) := by
  intro w
  have hmem : ∀ i, i ∈ p.positions points ↔
      ∃ q, Rise.EstimateAt p.settings.method w points i q := fun i => Rise.mem_positions_iff
  refine ⟨p.positions points, Rise.pairwise_positions _ _ points, ?_, p.map_place_rates_eq points,
    Rise.forall₂_positions_estimate _ _ points, hmem, ?_, Rise.map_place_despike,
    Rise.map_place_smooth, p.length_rates_le points, ?_⟩
  · intro i hi
    obtain ⟨q, hq⟩ := (hmem i).mp hi
    exact ⟨hq.le, hq.lt_length⟩
  · intro hmethod i
    rw [hmem i, hmethod]
    exact Rise.exists_estimateAt_difference_iff
  · intro h
    exact p.pairwise_rates h

/-- Two readings at the same time and one that is infinite: three of five windows have no rate. -/
theorem rates_at_readings_gaps :
    let points : List TemperaturePoint :=
      [⟨0, 20⟩, ⟨60, 22⟩, ⟨60, 23⟩, ⟨120, 26⟩, ⟨180, .infinity false⟩, ⟨240, 30⟩]
    let p : RisePipeline := ⟨{ window := 1, alpha := 0.5 }, by decide +kernel⟩
    p.settings.method = .windowedDifference ∧ (points.Pairwise fun a b => a.time ≤ b.time) ∧
      (p.rates points).map RatePoint.place = [⟨60, 22⟩, ⟨120, 26⟩] ∧
      ((p.rates points).Pairwise fun a b => a.time ≤ b.time) ∧
      ∃ indices : List Nat, (p.rates points).map (fun q => some q.place) =
        indices.map (points[·]?) ∧ 2 ∉ indices ∧ 3 ∈ indices := by
  intro points p
  have hsorted : points.Pairwise fun a b => a.time ≤ b.time := by decide +kernel
  obtain ⟨indices, -, -, hplaces, -, -, hdifference, -, -, -, htimes⟩ := rates_at_readings p points
  refine ⟨rfl, hsorted, by decide +kernel, htimes hsorted, indices, hplaces, ?_, ?_⟩
  · intro hmem
    obtain ⟨-, start, stop, hstart, hstop, helapsed, -⟩ := (hdifference rfl 2).mp hmem
    obtain rfl := Option.some.inj hstart
    obtain rfl := Option.some.inj hstop
    exact helapsed (by decide +kernel)
  · exact (hdifference rfl 3).mpr ⟨by decide, _, _, rfl, rfl, by decide +kernel, by decide +kernel⟩

end RisePipeline

end RoastTelemetry
