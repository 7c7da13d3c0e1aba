import RoastTelemetry.Proofs.Binary.Finite
import RoastTelemetry.Rise.Estimate
import Mathlib.Data.List.Infix

/-!
# Windows and what is estimated from them

Both methods look back over a window that ends at a point, so the estimate at a position is a
function of the points up to that position. More points afterwards add estimates at the end and
change none.

An estimate that is finite in single precision comes from a window with finite temperatures where
the method looks: what is not finite does not cancel on the way.
-/

namespace RoastTelemetry

/-- The point of the curve that a rate belongs to. -/
def RatePoint.place (p : RatePoint) : TemperaturePoint := ⟨p.time, p.temperature⟩

namespace Rise

/-- The rate over the window from `start` to `stop`, whose points are `window`. -/
def windowRate? (method : RiseMethod) (start stop : TemperaturePoint)
    (window : List TemperaturePoint) : Option Double :=
  match method with
  | .windowedDifference => differenceRate? start stop
  | .linearRegression => regressionRate? window

theorem denotes_secondsPerMinute : secondsPerMinute.Denotes 60 :=
  Binary.denotes_ofNat_double (n := 60) (by norm_num)

theorem getElem?_windows (w : Nat) (points : List TemperaturePoint) (i : Nat) :
    (windows w points)[i]? =
      if i + w < points.length then some ((points.drop i).take (w + 1)) else none := by
  unfold windows
  rw [List.getElem?_map]
  by_cases hi : i + w < points.length
  · rw [List.getElem?_range (by omega), if_pos hi]
    rfl
  · rw [if_neg hi, List.getElem?_eq_none (by rw [List.length_range]; omega)]
    rfl

/-- The rate at a position: the window begins there and ends `w` points later. -/
theorem getElem?_rates (method : RiseMethod) (w : Nat) (points : List TemperaturePoint) (i : Nat)
    (q : TemperaturePoint × Option Double) :
    (rates method w points)[i]? = some q ↔
      ∃ start stop, points[i]? = some start ∧ points[i + w]? = some stop ∧
        q = (stop, windowRate? method start stop ((points.drop i).take (w + 1))) := by
  have hdrop : (points.drop w)[i]? = points[i + w]? := by
    rw [List.getElem?_drop, Nat.add_comm]
  unfold rates
  cases method with
  | windowedDifference =>
      rw [List.getElem?_map, Option.map_eq_some_iff]
      constructor
      · rintro ⟨⟨start, stop⟩, hzip, rfl⟩
        obtain ⟨hstart, hstop⟩ := List.getElem?_zip_eq_some.mp hzip
        rw [hdrop] at hstop
        exact ⟨start, stop, hstart, hstop, rfl⟩
      · rintro ⟨start, stop, hstart, hstop, rfl⟩
        refine ⟨(start, stop), List.getElem?_zip_eq_some.mpr ⟨hstart, ?_⟩, rfl⟩
        rw [hdrop]
        exact hstop
  | linearRegression =>
      rw [List.getElem?_map, Option.map_eq_some_iff]
      constructor
      · rintro ⟨⟨stop, window⟩, hzip, rfl⟩
        obtain ⟨hstop, hwindow⟩ := List.getElem?_zip_eq_some.mp hzip
        rw [hdrop] at hstop
        obtain ⟨hlt, -⟩ := List.getElem?_eq_some_iff.mp hstop
        rw [getElem?_windows, if_pos hlt] at hwindow
        obtain rfl := Option.some.inj hwindow
        have hi : i < points.length := by omega
        exact ⟨points[i], stop, List.getElem?_eq_getElem hi, hstop, rfl⟩
      · rintro ⟨start, stop, -, hstop, rfl⟩
        obtain ⟨hlt, -⟩ := List.getElem?_eq_some_iff.mp hstop
        refine ⟨(stop, _), List.getElem?_zip_eq_some.mpr ⟨?_, ?_⟩, rfl⟩
        · rw [hdrop]
          exact hstop
        · rw [getElem?_windows, if_pos hlt]

theorem length_rates (method : RiseMethod) (w : Nat) (points : List TemperaturePoint) :
    (rates method w points).length = points.length - w := by
  unfold rates windows
  cases method with
  | windowedDifference => simp
  | linearRegression => simp

/-! ## More points afterwards -/

/-- A window that fits into a list is the same window in a longer one. -/
theorem take_drop_append {points : List TemperaturePoint} {i w : Nat} (h : i + w < points.length)
    (more : List TemperaturePoint) :
    ((points ++ more).drop i).take (w + 1) = (points.drop i).take (w + 1) := by
  rw [List.drop_append_of_le_length (by omega), List.take_append_of_le_length]
  rw [List.length_drop]
  omega

/-- **Later points change no rate.** -/
theorem isPrefix_rates (method : RiseMethod) (w : Nat) (points more : List TemperaturePoint) :
    rates method w points <+: rates method w (points ++ more) := by
  rw [List.prefix_iff_getElem?]
  intro i hi
  obtain ⟨start, stop, hstart, hstop, hrate⟩ :=
    (getElem?_rates method w points i _).mp (List.getElem?_eq_getElem hi)
  have hfits := (List.getElem?_eq_some_iff.mp hstop).1
  rw [getElem?_rates, hrate, ← take_drop_append hfits more]
  refine ⟨start, stop, ?_, ?_, rfl⟩
  · rwa [List.getElem?_append_left (by omega)]
  · rwa [List.getElem?_append_left hfits]

theorem isPrefix_estimate (method : RiseMethod) (w : Nat) (points more : List TemperaturePoint) :
    estimate method w points <+: estimate method w (points ++ more) :=
  (isPrefix_rates method w points more).filterMap _

/-! ## Finite estimates -/

theorem isFinite_of_differenceRate? {start stop : TemperaturePoint} {rate : Double}
    (h : differenceRate? start stop = some rate) (hrate : rate.isFinite = true) :
    stop.temperature.isFinite = true := by
  unfold differenceRate? at h
  dsimp only at h
  split at h
  · cases h
  · obtain rfl := Option.some.inj h
    have hdifference := Binary.isFinite_of_convert (Binary.isFinite_of_div hrate)
    exact (Binary.isFinite_of_sub hdifference).1

/-- A finite slope has seen finite temperatures only. -/
theorem isFinite_of_slope? {window : List TemperaturePoint} {slope : Double}
    (h : slope? window = some slope) (hslope : slope.isFinite = true) :
    ∀ p ∈ window, p.temperature.isFinite = true := by
  unfold slope? at h
  split at h
  · cases h
  · dsimp only at h
    split at h
    · cases h
    · obtain rfl := Option.some.inj h
      intro p hp
      -- the point has its term in the sum of products
      have hterm := Binary.isFinite_of_sum (Binary.isFinite_of_div hslope) _
        (List.mem_map_of_mem hp)
      have hcentred := (Binary.isFinite_of_mul hterm).2
      exact Binary.isFinite_of_convert (Binary.isFinite_of_sub hcentred).1

theorem isFinite_of_windowRate? {method : RiseMethod} {start stop : TemperaturePoint}
    {window : List TemperaturePoint} {rate : Double}
    (h : windowRate? method start stop window = some rate) (hrate : rate.isFinite = true)
    (hstop : stop ∈ window) : stop.temperature.isFinite = true := by
  cases method with
  | windowedDifference => exact isFinite_of_differenceRate? h hrate
  | linearRegression =>
      obtain ⟨slope, hslope, rfl⟩ := Option.map_eq_some_iff.mp h
      exact isFinite_of_slope? hslope (Binary.isFinite_of_mul hrate).1 stop hstop

/-- What is made of a point and the rate over the window that it ends. -/
def ofRate? (r : TemperaturePoint × Option Double) : Option RatePoint := r.2.bind (ratePoint? r.1)

theorem estimate_eq (method : RiseMethod) (w : Nat) (points : List TemperaturePoint) :
    estimate method w points = (rates method w points).filterMap ofRate? := rfl

theorem ofRate?_eq_some_iff {r : TemperaturePoint × Option Double} {q : RatePoint} :
    ofRate? r = some q ↔ ∃ rate, r.2 = some rate ∧ rate.narrow.isFinite = true ∧
      q = ⟨r.1.time, r.1.temperature, rate.narrow⟩ := by
  unfold ofRate?
  rw [Option.bind_eq_some_iff]
  refine exists_congr fun rate => and_congr_right fun _ => ?_
  unfold ratePoint?
  split
  · rename_i hfinite
    rw [Option.some.injEq, eq_comm]
    exact (and_iff_right hfinite).symm
  · rename_i hfinite
    constructor
    · intro h
      cases h
    · intro h
      exact absurd h.1 hfinite

/-- What an estimate is made of: a point, the window that ends there, and its rate. -/
theorem exists_of_mem_estimate {method : RiseMethod} {w : Nat} {points : List TemperaturePoint}
    {p : RatePoint} (hp : p ∈ estimate method w points) :
    ∃ (i : Nat) (start stop : TemperaturePoint) (rate : Double),
      points[i]? = some start ∧ points[i + w]? = some stop ∧
      windowRate? method start stop ((points.drop i).take (w + 1)) = some rate ∧
      rate.narrow.isFinite = true ∧ p = ⟨stop.time, stop.temperature, rate.narrow⟩ := by
  rw [estimate_eq] at hp
  obtain ⟨r, hr, hpoint⟩ := List.mem_filterMap.mp hp
  obtain ⟨i, hi⟩ := List.mem_iff_getElem?.mp hr
  obtain ⟨start, stop, hstart, hstop, rfl⟩ := (getElem?_rates _ _ _ _ _).mp hi
  obtain ⟨rate, hrate, hfinite, rfl⟩ := ofRate?_eq_some_iff.mp hpoint
  exact ⟨i, start, stop, rate, hstart, hstop, hrate, hfinite, rfl⟩

/-- **Estimates are finite**, and so are the temperatures they belong to. -/
theorem isFinite_of_mem_estimate {method : RiseMethod} {w : Nat} {points : List TemperaturePoint}
    {p : RatePoint} (hp : p ∈ estimate method w points) :
    p.rate.isFinite = true ∧ p.temperature.isFinite = true := by
  obtain ⟨i, start, stop, rate, -, hstop, hrate, hfinite, rfl⟩ := exists_of_mem_estimate hp
  refine ⟨hfinite, isFinite_of_windowRate? hrate (Binary.isFinite_of_convert hfinite) ?_⟩
  -- the window ends at the point
  refine List.mem_of_getElem? (i := w) ?_
  rw [List.getElem?_take_of_lt (Nat.lt_succ_self w), List.getElem?_drop]
  exact hstop

/-! ## One rate all along -/

theorem map_rate_estimate {method : RiseMethod} {w : Nat} {points : List TemperaturePoint}
    {x : Single} (hrates : ∀ q ∈ rates method w points, q.2 = some x.widen)
    (hx : x.isFinite = true) :
    (estimate method w points).map RatePoint.rate = List.replicate (points.length - w) x := by
  have hpoint : ∀ q ∈ rates method w points,
      (q.2.bind (ratePoint? q.1)).map RatePoint.rate = some x := by
    intro q hq
    rw [hrates q hq]
    unfold ratePoint?
    rw [Option.bind_some, Binary.narrow_widen, if_pos hx]
    rfl
  unfold estimate
  rw [List.map_filterMap, List.filterMap_congr hpoint, ← length_rates method w points,
    ← List.map_const', ← List.filterMap_eq_map]
  rfl

end Rise

end RoastTelemetry
