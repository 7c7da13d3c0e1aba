import RoastTelemetry.Proofs.Document.Settings
import RoastTelemetry.Proofs.Json.Spelling

/-!
# Settings that are given in part

A settings document need not give everything. Whatever is left out, at the top or inside one of the
parts, is what it is in the default settings, and a part that is left out altogether is the same as
one that is there with nothing in it. So a document with members deleted is read as the settings it
was written from, with the defaults laid over them where something is gone; and then these settings
are checked, not the ones it was written from.
-/

namespace RoastTelemetry

open Json

/-- A place in a settings document. -/
inductive Place where
  /-- A member of the whole. -/
  | top (key : String)
  /-- A member of one of its parts. -/
  | inside (part key : String)
deriving DecidableEq

namespace Json.Value

/-- A document without the members at some places. -/
def prune (deleted : List Place) : Value → Value
  | .object members =>
    let parts := members.map fun member => (member.1, member.2.without fun key =>
      member.1.decode?.any fun part => decide (Place.inside part key ∈ deleted))
    (Value.object parts).without fun key => decide (Place.top key ∈ deleted)
  | v => v

theorem prune_record (deleted : List Place) (members : List (String × Value)) :
    (record members).prune deleted =
      (record (members.map fun member => (member.1, member.2.without fun key =>
        decide (Place.inside member.1 key ∈ deleted)))).without
          fun key => decide (Place.top key ∈ deleted) := by
  simp only [record, prune, List.map_map, Function.comp_def, RawString.decode?_ofString,
    Option.any_some]

theorem without_double (x : Double) (gone : String → Bool) :
    (double x).without gone = double x := by
  by_cases hx : x.isFinite = true
  · obtain ⟨n, hn⟩ := writesFinite_double.finite x hx
    rw [hn]
    rfl
  · rw [writesFinite_double.other x (eq_false_of_ne_true hx)]
    rfl

end Json.Value

namespace Settings

/-- The settings with the defaults at some places. -/
def overlay (deleted : List Place) (c : Settings) : Settings :=
  let d : Settings := {}
  { bufferCapacity :=
      if .top "buffer_capacity" ∈ deleted then d.bufferCapacity else c.bufferCapacity
    precision := if .top "precision" ∈ deleted then d.precision else c.precision
    thinning := if .top "thinning" ∈ deleted then d.thinning else {
      maxPoints :=
        if .inside "thinning" "max_points" ∈ deleted then d.thinning.maxPoints
        else c.thinning.maxPoints
      changeThreshold :=
        if .inside "thinning" "change_threshold" ∈ deleted then d.thinning.changeThreshold
        else c.thinning.changeThreshold }
    rise := if .top "ror" ∈ deleted then d.rise else {
      method := if .inside "ror" "method" ∈ deleted then d.rise.method else c.rise.method
      window := if .inside "ror" "window_size" ∈ deleted then d.rise.window else c.rise.window
      alpha := if .inside "ror" "smoothing_alpha" ∈ deleted then d.rise.alpha else c.rise.alpha
      band := if .inside "ror" "spike_band" ∈ deleted then d.rise.band else c.rise.band }
    thresholds := if .top "landmarks" ∈ deleted then d.thresholds else {
      dryEnd :=
        if .inside "landmarks" "dry_end" ∈ deleted then d.thresholds.dryEnd
        else c.thresholds.dryEnd
      firstCrack :=
        if .inside "landmarks" "first_crack" ∈ deleted then d.thresholds.firstCrack
        else c.thresholds.firstCrack
      secondCrack :=
        if .inside "landmarks" "second_crack" ∈ deleted then d.thresholds.secondCrack
        else c.thresholds.secondCrack } }

variable (deleted : List Place) (c : Settings)

/-- What is deleted in a part is gone from that part alone, and only a part has anything in it. -/
theorem prune_toJson :
    c.toJson.prune deleted =
      (Value.record (c.members
        ((Value.record c.thinning.members).without fun key =>
          decide (Place.inside "thinning" key ∈ deleted))
        ((Value.record c.rise.members).without fun key =>
          decide (Place.inside "ror" key ∈ deleted))
        ((Value.record c.thresholds.members).without fun key =>
          decide (Place.inside "landmarks" key ∈ deleted)))).without
        fun key => decide (Place.top key ∈ deleted) := by
  unfold toJson
  rw [Value.prune_record]
  -- the capacity and the precision are no objects, so there is nothing in them to delete
  simp only [List.map_cons, List.map_nil, Value.without_double]
  rfl

theorem plain_prune : (c.toJson.prune deleted).Plain := by
  rw [prune_toJson]
  exact Value.plain_without (c.plain_members (Value.plain_without c.thinning.plain_members _)
    (Value.plain_without c.rise.plain_members _)
    (Value.plain_without c.thresholds.plain_members _)) _

/-- **What is left of settings is read with the defaults for what is gone.** -/
theorem ofJson?_prune (hfinite : c.floats.Finite) (hlegible : c.floats.Legible) :
    ofJson? (c.toJson.prune deleted) = some (c.overlay deleted) := by
  obtain ⟨⟨⟨-, hthinningFinite⟩, hriseFinite⟩, hthresholdsFinite⟩ := floats_all.mp hfinite
  obtain ⟨⟨⟨-, hthinningLegible⟩, hriseLegible⟩, hthresholdsLegible⟩ := floats_all.mp hlegible
  rw [prune_toJson, ofJson?_without hfinite hlegible
    (Thinning.ofJson?_without hthinningFinite hthinningLegible _)
    (RiseSettings.ofJson?_without hriseFinite hriseLegible _)
    (Thresholds.ofJson?_without hthresholdsFinite hthresholdsLegible _)]
  simp only [decide_eq_true_eq]
  rfl

/-- The band is the one of the defaults only where it is deleted, and not where there is none. -/
theorem band_overlay :
    (c.overlay deleted).rise.band =
      if .top "ror" ∈ deleted ∨ .inside "ror" "spike_band" ∈ deleted then some SpikeBand.default
      else c.rise.band := by
  unfold overlay
  by_cases hpart : Place.top "ror" ∈ deleted
  · simp only [hpart, true_or, if_true]
  · simp only [hpart, false_or, if_false]

/--
**A settings document in part is laid over the defaults.** Whatever settings a document was written
from and whatever has been deleted from it, it is read as these settings with the defaults where
something is deleted, and these are accepted or refused as `validate` says. The band stays as it
was, none included, unless it is deleted.
-/
theorem ofText_of_partial (hfinite : c.floats.Finite) (hlegible : c.floats.Legible) :
    let remaining := c.toJson.prune deleted
    let merged := c.overlay deleted
    parse? remaining.bytes = some remaining ∧
    (∀ text, parse? text = some remaining →
      (merged.validate = .ok () → ofText text = .ok merged) ∧
      ∀ refusal, merged.validate = .error refusal → ofText text = .error refusal) ∧
    merged.rise.band =
      if .top "ror" ∈ deleted ∨ .inside "ror" "spike_band" ∈ deleted then some SpikeBand.default
      else c.rise.band := by
  refine ⟨parse?_bytes (c.plain_prune deleted), fun text htext => ?_, c.band_overlay deleted⟩
  have hread : (parse? text).bind ofJson? = some (c.overlay deleted) := by
    rw [htext, Option.bind_some]
    exact c.ofJson?_prune deleted hfinite hlegible
  unfold ofText
  rw [hread]
  constructor
  · intro hvalid
    dsimp only
    rw [hvalid]
    rfl
  · intro refusal hrefused
    dsimp only
    rw [hrefused]
    rfl

/-- Settings with no capacity, no window and no band: with the capacity deleted the window is
refused, and with the window deleted too there is still no band. -/
theorem ofText_of_partial_without_band :
    let c : Settings := { bufferCapacity := 0, rise := { window := 0, band := none } }
    ofText (c.toJson.prune [.top "buffer_capacity"]).bytes = .error (.window 0) ∧
    ofText (word "\x7b\"precision\":10.0,\"ror\":\x7b\"spike_band\":null\x7d\x7d") =
      .ok { rise := { band := none } } := by
  intro c
  have hfinite : c.floats.Finite := by decide +kernel
  have hlegible : c.floats.Legible := by decide +kernel
  let most : List Place := [.top "buffer_capacity", .inside "ror" "window_size",
    .inside "ror" "method", .inside "ror" "smoothing_alpha", .top "thinning", .top "landmarks"]
  obtain ⟨hparse, hwindow, -⟩ := ofText_of_partial [.top "buffer_capacity"] c hfinite hlegible
  obtain ⟨-, hrest, -⟩ := ofText_of_partial most c hfinite hlegible
  exact ⟨(hwindow _ hparse).2 _ (by decide +kernel),
    (hrest _ (parse?_eq_some_iff.mpr (by decide +kernel))).1 (by decide +kernel)⟩

end Settings

end RoastTelemetry
