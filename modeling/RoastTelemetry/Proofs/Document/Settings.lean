import RoastTelemetry.Document.Settings
import RoastTelemetry.Proofs.Document.Floats
import RoastTelemetry.Proofs.Json.Omissions

/-!
# Settings are read as they were written

Settings are written in full, so no default stands in for anything when they are read. If members
are left out afterwards, the defaults stand in for these and for nothing else. The spike band is
written as null if there is none, and null is read as no band; only a document without the key gets
the band of the defaults.
-/

namespace RoastTelemetry

open Json

namespace RiseMethod

theorem ofJson?_toJson (m : RiseMethod) : ofJson? m.toJson = some m := by
  unfold toJson Value.text ofJson?
  dsimp only
  rw [RawString.decode?_ofString, Option.bind_some]
  cases m <;> rfl

end RiseMethod

namespace SpikeBand

/-- The floating-point values in a band. -/
def floats (b : SpikeBand) : Floats where
  singles := [b.low, b.high]

theorem plain_toJson (b : SpikeBand) : b.toJson.Plain := by
  refine Value.plain_record ?_
  simp only [List.forall_mem_cons]
  exact ⟨Value.writesFinite_single.plain _, Value.writesFinite_single.plain _,
    List.forall_mem_nil _⟩

theorem ofJson?_toJson {b : SpikeBand} (hfinite : b.floats.Finite) (hlegible : b.floats.Legible) :
    ofJson? b.toJson = some b := by
  obtain ⟨hsingles, -⟩ := Floats.reads hfinite hlegible
  simp only [floats, List.forall_mem_cons] at hsingles
  obtain ⟨⟨-, hlow⟩, ⟨-, hhigh⟩, -⟩ := hsingles
  unfold ofJson?
  refine Record.bind_field (Value.record?_record (by simp) (by simp)) ?_
  refine Record.bind_field ((Record.required_of_get? rfl).trans hlow) ?_
  refine Record.bind_field ((Record.required_of_get? rfl).trans hhigh) ?_
  rfl

end SpikeBand

namespace RiseSettings

/-- The floating-point values in settings of the rate of rise. -/
def floats (s : RiseSettings) : Floats :=
  { singles := [s.alpha] } ++ Floats.join (s.band.toList.map SpikeBand.floats)

/-- The members that settings of the rate of rise are written as. -/
def members (s : RiseSettings) : List (String × Value) :=
  [("method", s.method.toJson), ("window_size", .nat s.window.toNat),
    ("smoothing_alpha", .single s.alpha), ("spike_band", .option SpikeBand.toJson s.band)]

theorem plain_members (s : RiseSettings) : ∀ m ∈ s.members, m.2.Plain := by
  simp only [members, List.forall_mem_cons]
  exact ⟨Value.plain_text _, Value.plain_number _, Value.writesFinite_single.plain _,
    Value.plain_option SpikeBand.plain_toJson _, List.forall_mem_nil _⟩

theorem plain_toJson (s : RiseSettings) : s.toJson.Plain := Value.plain_record s.plain_members

theorem ofJson?_without {s : RiseSettings} (hfinite : s.floats.Finite)
    (hlegible : s.floats.Legible) (gone : String → Bool) :
    let d : RiseSettings := {}
    ofJson? ((Value.record s.members).without gone) = some {
      method := if gone "method" then d.method else s.method
      window := if gone "window_size" then d.window else s.window
      alpha := if gone "smoothing_alpha" then d.alpha else s.alpha
      band := if gone "spike_band" then d.band else s.band } := by
  intro d
  obtain ⟨halphaFinite, hbandFinite⟩ := Floats.all_append.mp hfinite
  obtain ⟨halphaLegible, hbandLegible⟩ := Floats.all_append.mp hlegible
  obtain ⟨-, halpha⟩ := (Floats.reads halphaFinite halphaLegible).1 s.alpha List.mem_cons_self
  have hband : ∀ band ∈ s.band, band.toJson ≠ .null ∧
      SpikeBand.ofJson? band.toJson = some band := by
    intro band hband
    have hmem : band.floats ∈ s.band.toList.map SpikeBand.floats :=
      List.mem_map_of_mem (Option.mem_toList.mpr hband)
    exact ⟨nofun, SpikeBand.ofJson?_toJson (Floats.all_join.mp hbandFinite _ hmem)
      (Floats.all_join.mp hbandLegible _ hmem)⟩
  obtain ⟨r, hr, hget⟩ := Value.exists_record_without s.members gone rfl (by simp [members])
  simp only [members, List.mem_cons] at hget
  unfold ofJson?
  refine Record.bind_field hr ?_
  refine Record.bind_field
    (Record.withDefault_of_kept (hget _ _ (by simp)) (RiseMethod.ofJson?_toJson s.method)) ?_
  refine Record.bind_field
    (Record.withDefault_of_kept (hget _ _ (by simp)) (Value.uint64?_nat s.window)) ?_
  refine Record.bind_field (Record.withDefault_of_kept (hget _ _ (by simp)) halpha) ?_
  refine Record.bind_field
    (Record.withDefault_of_kept (hget _ _ (by simp)) (Value.option?_option hband)) ?_
  rfl

theorem ofJson?_toJson {s : RiseSettings} (hfinite : s.floats.Finite)
    (hlegible : s.floats.Legible) : ofJson? s.toJson = some s := by
  have hjson : s.toJson = (Value.record s.members).without fun _ => false :=
    (Value.without_none s.members).symm
  rw [hjson]
  exact ofJson?_without hfinite hlegible fun _ => false

end RiseSettings

namespace Thinning

/-- The floating-point values in thinning settings. -/
def floats (t : Thinning) : Floats where
  singles := [t.changeThreshold]

/-- The members that thinning settings are written as. -/
def members (t : Thinning) : List (String × Value) :=
  [("max_points", .nat t.maxPoints.toNat), ("change_threshold", .single t.changeThreshold)]

theorem plain_members (t : Thinning) : ∀ m ∈ t.members, m.2.Plain := by
  simp only [members, List.forall_mem_cons]
  exact ⟨Value.plain_number _, Value.writesFinite_single.plain _, List.forall_mem_nil _⟩

theorem plain_toJson (t : Thinning) : t.toJson.Plain := Value.plain_record t.plain_members

theorem ofJson?_without {t : Thinning} (hfinite : t.floats.Finite) (hlegible : t.floats.Legible)
    (gone : String → Bool) :
    let d : Thinning := {}
    ofJson? ((Value.record t.members).without gone) = some {
      maxPoints := if gone "max_points" then d.maxPoints else t.maxPoints
      changeThreshold :=
        if gone "change_threshold" then d.changeThreshold else t.changeThreshold } := by
  intro d
  obtain ⟨hsingles, -⟩ := Floats.reads hfinite hlegible
  obtain ⟨-, hthreshold⟩ := hsingles t.changeThreshold List.mem_cons_self
  obtain ⟨r, hr, hget⟩ := Value.exists_record_without t.members gone rfl (by simp [members])
  simp only [members, List.mem_cons] at hget
  unfold ofJson?
  refine Record.bind_field hr ?_
  refine Record.bind_field
    (Record.withDefault_of_kept (hget _ _ (by simp)) (Value.uint64?_nat t.maxPoints)) ?_
  refine Record.bind_field (Record.withDefault_of_kept (hget _ _ (by simp)) hthreshold) ?_
  rfl

theorem ofJson?_toJson {t : Thinning} (hfinite : t.floats.Finite) (hlegible : t.floats.Legible) :
    ofJson? t.toJson = some t := by
  have hjson : t.toJson = (Value.record t.members).without fun _ => false :=
    (Value.without_none t.members).symm
  rw [hjson]
  exact ofJson?_without hfinite hlegible fun _ => false

end Thinning

namespace Thresholds

/-- The floating-point values in thresholds. -/
def floats (t : Thresholds) : Floats where
  singles := [t.dryEnd, t.firstCrack, t.secondCrack]

/-- The members that thresholds are written as. -/
def members (t : Thresholds) : List (String × Value) :=
  [("dry_end", .single t.dryEnd), ("first_crack", .single t.firstCrack),
    ("second_crack", .single t.secondCrack)]

theorem plain_members (t : Thresholds) : ∀ m ∈ t.members, m.2.Plain := by
  have hsingle := Value.writesFinite_single.plain
  simp only [members, List.forall_mem_cons]
  exact ⟨hsingle _, hsingle _, hsingle _, List.forall_mem_nil _⟩

theorem plain_toJson (t : Thresholds) : t.toJson.Plain := Value.plain_record t.plain_members

theorem ofJson?_without {t : Thresholds} (hfinite : t.floats.Finite) (hlegible : t.floats.Legible)
    (gone : String → Bool) :
    let d : Thresholds := {}
    ofJson? ((Value.record t.members).without gone) = some {
      dryEnd := if gone "dry_end" then d.dryEnd else t.dryEnd
      firstCrack := if gone "first_crack" then d.firstCrack else t.firstCrack
      secondCrack := if gone "second_crack" then d.secondCrack else t.secondCrack } := by
  intro d
  obtain ⟨hsingles, -⟩ := Floats.reads hfinite hlegible
  simp only [floats, List.forall_mem_cons] at hsingles
  obtain ⟨⟨-, hdryEnd⟩, ⟨-, hfirstCrack⟩, ⟨-, hsecondCrack⟩, -⟩ := hsingles
  obtain ⟨r, hr, hget⟩ := Value.exists_record_without t.members gone rfl (by simp [members])
  simp only [members, List.mem_cons] at hget
  unfold ofJson?
  refine Record.bind_field hr ?_
  refine Record.bind_field (Record.withDefault_of_kept (hget _ _ (by simp)) hdryEnd) ?_
  refine Record.bind_field (Record.withDefault_of_kept (hget _ _ (by simp)) hfirstCrack) ?_
  refine Record.bind_field (Record.withDefault_of_kept (hget _ _ (by simp)) hsecondCrack) ?_
  rfl

theorem ofJson?_toJson {t : Thresholds} (hfinite : t.floats.Finite) (hlegible : t.floats.Legible) :
    ofJson? t.toJson = some t := by
  have hjson : t.toJson = (Value.record t.members).without fun _ => false :=
    (Value.without_none t.members).symm
  rw [hjson]
  exact ofJson?_without hfinite hlegible fun _ => false

end Thresholds

namespace Settings

/-- The floating-point values in settings. -/
def floats (s : Settings) : Floats :=
  { doubles := [s.precision] } ++ s.thinning.floats ++ s.rise.floats ++ s.thresholds.floats

theorem floats_all {s : Settings} {onSingle : Single → Prop} {onDouble : Double → Prop} :
    s.floats.All onSingle onDouble ↔
      ((({ doubles := [s.precision] } : Floats).All onSingle onDouble ∧
        s.thinning.floats.All onSingle onDouble) ∧ s.rise.floats.All onSingle onDouble) ∧
        s.thresholds.floats.All onSingle onDouble := by
  simp only [floats, Floats.all_append]

/-- The members of settings whose parts are written as the given values. -/
def members (s : Settings) (thinning rise thresholds : Value) : List (String × Value) :=
  [("buffer_capacity", .nat s.bufferCapacity.toNat), ("precision", .double s.precision),
    ("thinning", thinning), ("ror", rise), ("landmarks", thresholds)]

theorem plain_members (s : Settings) {thinning rise thresholds : Value} (hthinning : thinning.Plain)
    (hrise : rise.Plain) (hthresholds : thresholds.Plain) :
    ∀ m ∈ s.members thinning rise thresholds, m.2.Plain := by
  simp only [members, List.forall_mem_cons]
  exact ⟨Value.plain_number _, Value.writesFinite_double.plain _, hthinning, hrise, hthresholds,
    List.forall_mem_nil _⟩

theorem plain_toJson (s : Settings) : s.toJson.Plain :=
  Value.plain_record
    (s.plain_members s.thinning.plain_toJson s.rise.plain_toJson s.thresholds.plain_toJson)

/-- Settings are read with what their parts are read as, however these are written. -/
theorem ofJson?_without {s : Settings} (hfinite : s.floats.Finite) (hlegible : s.floats.Legible)
    {thinning rise thresholds : Value} {t : Thinning} {r : RiseSettings} {l : Thresholds}
    (hthinning : Thinning.ofJson? thinning = some t) (hrise : RiseSettings.ofJson? rise = some r)
    (hthresholds : Thresholds.ofJson? thresholds = some l) (gone : String → Bool) :
    let d : Settings := {}
    ofJson? ((Value.record (s.members thinning rise thresholds)).without gone) = some {
      bufferCapacity := if gone "buffer_capacity" then d.bufferCapacity else s.bufferCapacity
      precision := if gone "precision" then d.precision else s.precision
      thinning := if gone "thinning" then d.thinning else t
      rise := if gone "ror" then d.rise else r
      thresholds := if gone "landmarks" then d.thresholds else l } := by
  intro d
  obtain ⟨⟨⟨hprecisionFinite, -⟩, -⟩, -⟩ := floats_all.mp hfinite
  obtain ⟨⟨⟨hprecisionLegible, -⟩, -⟩, -⟩ := floats_all.mp hlegible
  obtain ⟨-, hprecision⟩ :=
    (Floats.reads hprecisionFinite hprecisionLegible).2 s.precision List.mem_cons_self
  obtain ⟨record, hrecord, hget⟩ :=
    Value.exists_record_without (s.members thinning rise thresholds) gone rfl (by simp [members])
  simp only [members, List.mem_cons] at hget
  unfold ofJson?
  refine Record.bind_field hrecord ?_
  refine Record.bind_field
    (Record.withDefault_of_kept (hget _ _ (by simp)) (Value.uint64?_nat s.bufferCapacity)) ?_
  refine Record.bind_field (Record.withDefault_of_kept (hget _ _ (by simp)) hprecision) ?_
  refine Record.bind_field (Record.withDefault_of_kept (hget _ _ (by simp)) hthinning) ?_
  refine Record.bind_field (Record.withDefault_of_kept (hget _ _ (by simp)) hrise) ?_
  refine Record.bind_field (Record.withDefault_of_kept (hget _ _ (by simp)) hthresholds) ?_
  rfl

theorem ofJson?_toJson {s : Settings} (hfinite : s.floats.Finite) (hlegible : s.floats.Legible) :
    ofJson? s.toJson = some s := by
  have hjson : s.toJson =
      (Value.record (s.members s.thinning.toJson s.rise.toJson s.thresholds.toJson)).without
        fun _ => false := (Value.without_none _).symm
  obtain ⟨⟨⟨-, hthinningFinite⟩, hriseFinite⟩, hthresholdsFinite⟩ := floats_all.mp hfinite
  obtain ⟨⟨⟨-, hthinningLegible⟩, hriseLegible⟩, hthresholdsLegible⟩ := floats_all.mp hlegible
  rw [hjson]
  exact ofJson?_without hfinite hlegible
    (Thinning.ofJson?_toJson hthinningFinite hthinningLegible)
    (RiseSettings.ofJson?_toJson hriseFinite hriseLegible)
    (Thresholds.ofJson?_toJson hthresholdsFinite hthresholdsLegible) fun _ => false

end Settings

end RoastTelemetry
