import RoastTelemetry.Proofs.Document.Samples
import RoastTelemetry.Proofs.Document.Settings
import RoastTelemetry.Proofs.Json.Doubles
import RoastTelemetry.Proofs.Settings

/-!
# What is accepted, stored and loaded again

A document that is accepted may hold a number beyond single precision, which is read as infinite.
Stored again, such a value is written as null. A sample is then loaded without that channel. A spike
band, a smoothing weight or a change threshold is checked when settings are accepted and so cannot
be infinite, but landmark temperatures are not checked: settings with an infinite one are accepted,
and what is stored of them is refused.
-/

namespace RoastTelemetry

open Json

namespace Sample

theorem ofPayload_eq_ok_iff {text : List UInt8} {s : Sample} :
    ofPayload text = .ok s ↔ (parse? text).bind ofJson? = some s := by
  unfold ofPayload
  cases (parse? text).bind ofJson? <;> simp

/-- A sample that is read has a finite time: a number beyond double precision is refused. -/
theorem isFinite_timestamp {v : Value} {s : Sample} (h : ofJson? v = some s) :
    s.timestamp.isFinite = true := by
  unfold ofJson? at h
  obtain ⟨r, -, h⟩ := Option.bind_eq_some_iff.mp h
  obtain ⟨timestamp, htimestamp, h⟩ := Option.bind_eq_some_iff.mp h
  -- the eleven channels have no say in the time
  iterate 11 obtain ⟨_, _, h⟩ := Option.bind_eq_some_iff.mp h
  obtain rfl := Option.some.inj h
  dsimp only
  unfold Record.withDefault at htimestamp
  split at htimestamp
  · exact Value.isFinite_of_double? htimestamp
  · obtain rfl := Option.some.inj htimestamp
    rw [Binary.zero_eq]
    rfl

theorem isFinite_timestamp_of_payload {text : List UInt8} {s : Sample}
    (h : ofPayload text = .ok s) : s.timestamp.isFinite = true := by
  obtain ⟨v, -, hv⟩ := Option.bind_eq_some_iff.mp (ofPayload_eq_ok_iff.mp h)
  exact isFinite_timestamp hv

/-- A stored sample is loaded with its finite channels. -/
theorem ofPayload_toJson {s : Sample} (htime : s.timestamp.isFinite = true)
    (hlegible : s.floats.Legible) : ofPayload s.toJson.bytes = .ok s.finiteChannels := by
  rw [ofPayload_eq_ok_iff, parse?_bytes s.plain_toJson, Option.bind_some]
  exact ofJson?_toJson htime hlegible

end Sample

/-- Thresholds of which one is not finite cannot be read back at all. -/
theorem Thresholds.finite_of_ofJson? {t t' : Thresholds} (h : ofJson? t.toJson = some t') :
    t.floats.Finite := by
  have hread {x y : Single} (hx : Value.single? (.single x) = some y) : x.isFinite = true := by
    by_contra hne
    rw [Value.writesFinite_single.other x (eq_false_of_ne_true hne)] at hx
    cases hx
  unfold ofJson? at h
  obtain ⟨r, hr, h⟩ := Option.bind_eq_some_iff.mp h
  obtain rfl := Option.some.inj ((Value.record?_record (by simp) (by simp)).symm.trans hr)
  obtain ⟨dryEnd, hdryEnd, h⟩ := Option.bind_eq_some_iff.mp h
  obtain ⟨firstCrack, hfirstCrack, h⟩ := Option.bind_eq_some_iff.mp h
  obtain ⟨secondCrack, hsecondCrack, -⟩ := Option.bind_eq_some_iff.mp h
  refine ⟨?_, List.forall_mem_nil _⟩
  simp only [floats, List.forall_mem_cons]
  exact ⟨hread hdryEnd, hread hfirstCrack, hread hsecondCrack, List.forall_mem_nil _⟩

theorem Thinning.isFinite_of_validate {t : Thinning} (h : t.validate = .ok ()) :
    t.changeThreshold.isFinite = true := by
  unfold validate at h
  split at h
  · cases h
  · split at h
    · cases h
    · rename_i hthreshold
      simp only [Bool.or_eq_true, Bool.not_eq_true', not_or, Bool.not_eq_false] at hthreshold
      exact hthreshold.1

namespace Settings

theorem ofText_eq_ok_iff {text : List UInt8} {s : Settings} :
    ofText text = .ok s ↔ (parse? text).bind ofJson? = some s ∧ s.validate = .ok () := by
  unfold ofText
  cases (parse? text).bind ofJson? with
  | none => simp
  | some t =>
      dsimp only
      cases ht : t.validate with
      | error refusal =>
          constructor
          · intro h
            cases h
          · rintro ⟨heq, hvalid⟩
            rw [Option.some.inj heq, hvalid] at ht
            cases ht
      | ok u =>
          constructor
          · intro h
            obtain rfl := Except.ok.inj h
            exact ⟨rfl, ht⟩
          · rintro ⟨heq, -⟩
            rw [Option.some.inj heq]
            rfl

/-- In settings that are accepted, only the landmark temperatures may be other than finite. -/
theorem Valid.finite_iff {s : Settings} (h : s.Valid) :
    s.floats.Finite ↔ s.thresholds.floats.Finite := by
  have hrise := RiseSettings.validate_eq_ok_iff.mp h.rise
  have hprecision : ({ doubles := [s.precision] } : Floats).Finite := by
    refine ⟨List.forall_mem_nil _, ?_⟩
    simp only [List.forall_mem_cons]
    exact ⟨h.precision.1, List.forall_mem_nil _⟩
  have hthinning : s.thinning.floats.Finite := by
    refine ⟨?_, List.forall_mem_nil _⟩
    simp only [Thinning.floats, List.forall_mem_cons]
    exact ⟨Thinning.isFinite_of_validate h.thinning, List.forall_mem_nil _⟩
  have hriseFinite : s.rise.floats.Finite := by
    refine Floats.all_append.mpr ⟨⟨?_, List.forall_mem_nil _⟩, Floats.all_join.mpr ?_⟩
    · simp only [List.forall_mem_cons]
      exact ⟨Binary.isFinite_of_between (Binary.le_of_lt hrise.alpha_pos) hrise.alpha_le_one
        Binary.denotes_zero.1 Binary.denotes_one.1, List.forall_mem_nil _⟩
    · simp only [List.mem_map, Option.mem_toList, forall_exists_index, and_imp]
      rintro _ band hband rfl
      have hvalid := hrise.band_valid band hband
      refine ⟨?_, List.forall_mem_nil _⟩
      simp only [SpikeBand.floats, List.forall_mem_cons]
      exact ⟨hvalid.low_isFinite, hvalid.high_isFinite, List.forall_mem_nil _⟩
  simp only [floats, Floats.Finite, Floats.all_append]
  exact ⟨fun h => h.2, fun h => ⟨⟨⟨hprecision, hthinning⟩, hriseFinite⟩, h⟩⟩

theorem finite_thresholds_of_ofJson? {s t : Settings} (h : ofJson? s.toJson = some t) :
    s.thresholds.floats.Finite := by
  unfold ofJson? at h
  obtain ⟨r, hr, h⟩ := Option.bind_eq_some_iff.mp h
  have hget : r.get? "landmarks" = some s.thresholds.toJson := by
    have hrecord := Option.some.inj ((Value.record?_record (by simp) (by simp)).symm.trans hr)
    rw [← hrecord]
    rfl
  iterate 4 obtain ⟨_, _, h⟩ := Option.bind_eq_some_iff.mp h
  obtain ⟨thresholds, hthresholds, -⟩ := Option.bind_eq_some_iff.mp h
  rw [Record.withDefault_of_get? hget] at hthresholds
  exact Thresholds.finite_of_ofJson? hthresholds

/-- Stored settings are loaded if the landmark temperatures are finite, and refused if not. -/
theorem ofText_toJson {s : Settings} (hvalid : s.validate = .ok ()) (hlegible : s.floats.Legible) :
    ofText s.toJson.bytes =
      if s.thresholds.floats.Finite then .ok s else .error .malformedSettings := by
  split
  · rename_i hfinite
    have hall : s.floats.Finite := (validate_eq_ok_iff.mp hvalid).finite_iff.mpr hfinite
    rw [ofText_eq_ok_iff, parse?_bytes s.plain_toJson, Option.bind_some]
    exact ⟨ofJson?_toJson hall hlegible, hvalid⟩
  · rename_i hinfinite
    have hnone : ofJson? s.toJson = none :=
      Option.eq_none_iff_forall_ne_some.mpr fun t ht =>
        hinfinite (finite_thresholds_of_ofJson? ht)
    unfold ofText
    rw [parse?_bytes s.plain_toJson, Option.bind_some, hnone]

end Settings

/--
**What is accepted comes back whole exactly if it is finite.** A payload that is accepted can be
stored and loaded, and comes back with its finite channels. Settings that are accepted come back if
their landmark temperatures are finite, and are refused if not.
-/
theorem accepted_reloads_iff (payload document : List UInt8) :
    (∀ s, Sample.ofPayload payload = .ok s → s.floats.Legible →
      Sample.ofPayload s.toJson.bytes = .ok s.finiteChannels ∧
        (Sample.ofPayload s.toJson.bytes = .ok s ↔ s.floats.Finite)) ∧
    ∀ c, Settings.ofText document = .ok c → c.floats.Legible →
      (Settings.ofText c.toJson.bytes = .ok c ↔ c.floats.Finite) ∧
        (¬c.floats.Finite → Settings.ofText c.toJson.bytes = .error .malformedSettings) := by
  constructor
  · intro s hs hlegible
    have htime := Sample.isFinite_timestamp_of_payload hs
    have hloaded := Sample.ofPayload_toJson htime hlegible
    refine ⟨hloaded, ?_⟩
    rw [hloaded, Except.ok.injEq]
    exact Sample.finiteChannels_eq_iff htime
  · intro c hc hlegible
    obtain ⟨-, hvalid⟩ := Settings.ofText_eq_ok_iff.mp hc
    have hfinite := (Settings.validate_eq_ok_iff.mp hvalid).finite_iff
    rw [Settings.ofText_toJson hvalid hlegible, hfinite]
    by_cases h : c.thresholds.floats.Finite
    · simp [h]
    · simp [h]

/-- A channel and a landmark temperature at the upper end of single precision come back. -/
theorem accepted_reloads_largest :
    (∃ s, Sample.ofPayload (word "\x7b\"timestamp\":1.5,\"beanTemp\":3e38\x7d") = .ok s ∧
      Sample.ofPayload s.toJson.bytes = .ok s) ∧
    ∃ c, Settings.ofText (word "\x7b\"landmarks\":\x7b\"first_crack\":3e38\x7d\x7d") = .ok c ∧
      Settings.ofText c.toJson.bytes = .ok c := by
  obtain ⟨hsample, hsettings⟩ := accepted_reloads_iff
    (word "\x7b\"timestamp\":1.5,\"beanTemp\":3e38\x7d")
    (word "\x7b\"landmarks\":\x7b\"first_crack\":3e38\x7d\x7d")
  have hs : Sample.ofPayload (word "\x7b\"timestamp\":1.5,\"beanTemp\":3e38\x7d") =
      .ok { timestamp := 1.5, beanTemp := some 3e38 } :=
    Sample.ofPayload_eq_ok_iff.mpr (by decide +kernel)
  have hc : Settings.ofText (word "\x7b\"landmarks\":\x7b\"first_crack\":3e38\x7d\x7d") =
      .ok { thresholds := { firstCrack := 3e38 } } :=
    Settings.ofText_eq_ok_iff.mpr ⟨by decide +kernel, by decide +kernel⟩
  exact ⟨⟨_, hs, (hsample _ hs (by decide +kernel)).2.mpr (by decide +kernel)⟩,
    _, hc, (hsettings _ hc (by decide +kernel)).1.mpr (by decide +kernel)⟩

/-- Just beyond single precision the channel is lost and the settings are refused, although every
finite value comes back. -/
theorem overflow_is_not_reloaded :
    (∃ s, Sample.ofPayload (word "\x7b\"timestamp\":1.5,\"beanTemp\":1e39\x7d") = .ok s ∧
      s.floats.Legible ∧ s.beanTemp.isSome = true ∧
      Sample.ofPayload s.toJson.bytes = .ok { timestamp := 1.5 }) ∧
    ∃ c, Settings.ofText (word "\x7b\"landmarks\":\x7b\"first_crack\":1e39\x7d\x7d") = .ok c ∧
      c.floats.Legible ∧ Settings.ofText c.toJson.bytes = .error .malformedSettings := by
  have hs : Sample.ofPayload (word "\x7b\"timestamp\":1.5,\"beanTemp\":1e39\x7d") =
      .ok { timestamp := 1.5, beanTemp := some (.infinity false) } :=
    Sample.ofPayload_eq_ok_iff.mpr (by decide +kernel)
  have hc : Settings.ofText (word "\x7b\"landmarks\":\x7b\"first_crack\":1e39\x7d\x7d") =
      .ok { thresholds := { firstCrack := .infinity false } } :=
    Settings.ofText_eq_ok_iff.mpr ⟨by decide +kernel, by decide +kernel⟩
  refine ⟨⟨_, hs, by decide +kernel, rfl, ?_⟩, _, hc, by decide +kernel, ?_⟩
  · exact Sample.ofPayload_toJson (by decide +kernel) (by decide +kernel)
  · rw [Settings.ofText_toJson (by decide +kernel) (by decide +kernel)]
    exact if_neg (by decide +kernel)

end RoastTelemetry
