import RoastTelemetry.Proofs.Roast.Landmarks

/-!
# Landmarks while the roast goes on

A landmark is the time of the first point that is hot enough, so points that come later do not move
it, wherever the curve goes. A landmark that is missing so far may still be found, and if that is
first crack, development starts with it. The drop alone is the time of the last point and moves with
every new one.

So a live display need not begin anew with every point: it can hand the landmarks it has back as
marks, once it has taken the drop back to what was marked, and gets what it would have got from the
whole curve.
-/

namespace RoastTelemetry.Landmarks

/-- Each landmark of `before` is the same in `after`, the drop apart. -/
structure Keeps (before after : Landmarks) : Prop where
  dryEnd : ∀ t, before.dryEnd = some t → after.dryEnd = some t
  firstCrack : ∀ t, before.firstCrack = some t → after.firstCrack = some t
  secondCrack : ∀ t, before.secondCrack = some t → after.secondCrack = some t
  developmentStart : ∀ t, before.developmentStart = some t → after.developmentStart = some t

/-- Landmarks with the drop taken back to the one that was marked, if any. -/
def reopened (l marked : Landmarks) : Landmarks := { l with drop := marked.drop }

/--
Derives the landmarks after each batch of points that a curve grows by, every time from those found
before.
-/
def track (marked : Landmarks) (thresholds : Thresholds) :
    List TemperaturePoint → Landmarks → List (List TemperaturePoint) → Landmarks
  | _, l, [] => l
  | curve, l, batch :: rest =>
    let curve := curve ++ batch
    track marked thresholds curve (ofCurve curve (l.reopened marked) thresholds) rest

/-! ## Filling in what is missing -/

section Fill

variable {α : Type} (x y z : Option α)

theorem or_self_or : x.or (x.or y) = x.or y := by rw [← Option.or_assoc, Option.or_self]

/-- What was filled in from `y` need not be looked for in `y` again. -/
theorem or_or_or : (x.or y).or (y.or z) = x.or (y.or z) := by
  rw [Option.or_assoc, or_self_or]

theorem or_or_self : (x.or y).or y = x.or y := by rw [Option.or_assoc, Option.or_self]

/-- What is there stays when more is looked for. -/
theorem or_eq_some_of_eq_some {x y : Option α} (z : Option α) {a : α} (h : x.or y = some a) :
    x.or (y.or z) = some a := by
  rw [← Option.or_assoc, h, Option.some_or]

end Fill

/-! ## One batch -/

/-- On a longer curve a temperature is reached where it was, or else among the new points. -/
theorem reached?_append (curve extension : List TemperaturePoint) (threshold : Single) :
    reached? (curve ++ extension) threshold =
      (reached? curve threshold).or (reached? extension threshold) := by
  unfold reached?
  rw [List.find?_append, Option.map_or]

variable (curve extension : List TemperaturePoint) (marked : Landmarks) (thresholds : Thresholds)

/-- First crack fills in itself, and the start of development behind it. -/
theorem ofCurve_eq :
    ofCurve curve marked thresholds =
      let firstCrack := marked.firstCrack.or (reached? curve thresholds.firstCrack)
      { dryEnd := marked.dryEnd.or (reached? curve thresholds.dryEnd)
        firstCrack
        secondCrack := marked.secondCrack.or (reached? curve thresholds.secondCrack)
        developmentStart := marked.developmentStart.or firstCrack
        drop := marked.drop.or (curve.getLast?.map (·.time)) } := by
  simp only [ofCurve, or, or_self_or]

theorem keeps_append :
    Keeps (ofCurve curve marked thresholds) (ofCurve (curve ++ extension) marked thresholds) := by
  constructor <;> intro t ht <;> simp only [ofCurve_eq, reached?_append] at ht ⊢
  case dryEnd | firstCrack | secondCrack => exact or_eq_some_of_eq_some _ ht
  case developmentStart =>
    -- it follows first crack, which is marked, or found so far, or found among the new points
    have hfirst := or_eq_some_of_eq_some (reached? extension thresholds.firstCrack) ht
    rwa [Option.or_assoc] at hfirst

theorem ofCurve_reopened :
    ofCurve (curve ++ extension) ((ofCurve curve marked thresholds).reopened marked) thresholds =
      ofCurve (curve ++ extension) marked thresholds := by
  -- the start of development was filled in from first crack as it was known before
  have hdevelopment := or_or_or marked.developmentStart
    (marked.firstCrack.or (reached? curve thresholds.firstCrack))
    (reached? extension thresholds.firstCrack)
  rw [@Option.or_assoc _ marked.firstCrack] at hdevelopment
  simp only [ofCurve_eq, reopened, reached?_append, or_or_or, hdevelopment]

theorem ofCurve_again :
    ofCurve curve (ofCurve curve marked thresholds) thresholds =
      ofCurve curve marked thresholds := by
  simp only [ofCurve_eq, or_or_self]

/-! ## Any number of batches -/

/-- Landmarks that are followed through all batches are those of the whole curve. -/
theorem track_eq_ofCurve (batches : List (List TemperaturePoint)) :
    track marked thresholds curve (ofCurve curve marked thresholds) batches =
      ofCurve (curve ++ batches.flatten) marked thresholds := by
  -- each batch finds the landmarks of the curve so far, so the curve is what the induction is for
  induction batches generalizing curve with
  | nil => rw [List.flatten_nil, List.append_nil]; rfl
  | cons batch rest ih =>
      rw [track, ofCurve_reopened, ih, List.flatten_cons, List.append_assoc]

/--
**Landmarks do not move, and can be derived as the curve grows.**

Whatever was marked by hand and wherever the curve goes, a landmark that is set stays at its time
when points are added, the drop apart. Deriving from the landmarks so far, with the drop as it was
marked, gives the landmarks of the longer curve; so it does batch after batch, and deriving once
more from the same curve changes nothing.
-/
theorem ofCurve_incremental :
    Keeps (ofCurve curve marked thresholds) (ofCurve (curve ++ extension) marked thresholds) ∧
      ofCurve (curve ++ extension) ((ofCurve curve marked thresholds).reopened marked) thresholds =
        ofCurve (curve ++ extension) marked thresholds ∧
      ofCurve curve (ofCurve curve marked thresholds) thresholds =
        ofCurve curve marked thresholds ∧
      ∀ batches, track marked thresholds curve (ofCurve curve marked thresholds) batches =
        ofCurve (curve ++ batches.flatten) marked thresholds :=
  ⟨keeps_append curve extension marked thresholds,
    ofCurve_reopened curve extension marked thresholds, ofCurve_again curve marked thresholds,
    track_eq_ofCurve curve marked thresholds⟩

/-- A drop that is not taken back would stay where the shorter curve ended. -/
example :
    let short : List TemperaturePoint := [⟨0, 90⟩, ⟨60, 170⟩]
    let new : List TemperaturePoint := [⟨120, 150⟩, ⟨180, 165⟩]
    ofCurve (short ++ new) (ofCurve short {} {}) {} =
        { dryEnd := some 60, drop := some 60 } ∧
      ofCurve (short ++ new) ((ofCurve short {} {}).reopened {}) {} =
        { dryEnd := some 60, drop := some 180 } := by
  decide +kernel

end RoastTelemetry.Landmarks
