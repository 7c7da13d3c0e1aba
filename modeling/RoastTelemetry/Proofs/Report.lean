import RoastTelemetry.Report
import RoastTelemetry.Proofs.Delta.Presence
import RoastTelemetry.Proofs.History.Contents
import RoastTelemetry.Proofs.Settings
import RoastTelemetry.Proofs.Thinning.Positions

/-!
# What a report is about

A report goes through all parts at once, and each of them may refuse what is set for it. With
settings that are accepted none does, and then all parts are about the same samples: the last ones,
as many as the history holds. Samples that were pushed out have no say in any of them.
-/

namespace RoastTelemetry

/-- No part of a report was refused. -/
structure Report.Complete (r : Report) : Prop where
  /-- There is a history. -/
  history : ∃ ring, r.history = .ok ring
  /-- It went through the codec. -/
  transmission : ∃ t, r.transmission = .ok t
  /-- There is a rate of rise. -/
  rates : ∃ points, r.rates = .ok points

theorem exists_of_map_eq_ok {ε α β : Type} {f : α → β} {x : Except ε α} {b : β}
    (h : x.map f = .ok b) : ∃ a, x = .ok a := by
  cases x with
  | error e => cases h
  | ok a => exact ⟨a, rfl⟩

/-- Pushes alone leave all points, in their order. -/
theorem RingStep.pushed_map_push {α : Type} (points : List α) :
    pushed (points.map .push) = points := by
  induction points using List.reverseRecOn with
  | nil => rfl
  | append_singleton points x ih =>
      unfold pushed at ih ⊢
      rw [List.map_append, List.foldl_append, ih]
      rfl

theorem RingBuffer.toList_foldl_push {α : Type} (capacity : Nat) (h : minCapacity ≤ capacity)
    (points : List α) :
    (points.foldl push (empty capacity h)).toList = points.drop (points.length - capacity) := by
  have hrun : points.foldl push (empty capacity h) = (empty capacity h).run (points.map .push) := by
    unfold run
    rw [List.foldl_map]
    rfl
  have hfollows := follows_run capacity h (points.map .push)
  rw [RingStep.pushed_map_push] at hfollows
  have hskipped : points.length - min points.length capacity = points.length - capacity := by omega
  rw [hrun, hfollows.toList_eq, hfollows.length_eq, capacity_run, capacity_empty, hskipped]

/-- A cap that is accepted has room for both ends, so it is not raised. -/
theorem Thinning.length_apply_le {t : Thinning} (h : t.validate = .ok ()) (samples : List Sample) :
    (t.apply samples).length ≤ t.maxPoints.toNat := by
  have hroom : minPoints ≤ t.maxPoints.toNat := by
    unfold validate at h
    split at h
    · cases h
    · rename_i hroom
      exact Nat.le_of_not_lt hroom
  exact Nat.le_trans (length_thin_le _ _ samples) (Nat.max_le.mpr ⟨Nat.le_refl _, hroom⟩)

namespace Codec

variable (c : Codec)

/-- What is transmitted arrives with the channels it has. -/
theorem presence_transmit (samples : List Sample) :
    (c.transmit samples).batch.map Packed.presence = samples.map Sample.presence ∧
      (c.transmit samples).decoded.map Sample.presence = samples.map Sample.presence := by
  obtain ⟨base, hbatch⟩ : ∃ base, (c.transmit samples).batch = c.packEach base none samples := by
    cases samples with
    | nil => exact ⟨0, rfl⟩
    | cons first rest => exact ⟨first.timestamp, rfl⟩
  have hdecoded : (c.transmit samples).decoded =
      c.unpackEach (c.transmit samples).state.base none (c.transmit samples).batch := rfl
  have hpacked : (c.transmit samples).batch.map Packed.presence = samples.map Sample.presence := by
    rw [hbatch, c.map_packEach (c.presence_pack _)]
  refine ⟨hpacked, ?_⟩
  rw [hdecoded, c.map_unpackEach (c.presence_unpack _), hpacked]

end Codec

namespace Settings

/-- Of some samples those that a history of the set capacity still holds after all of them. -/
def held (s : Settings) (samples : List Sample) : List Sample :=
  samples.drop (samples.length - s.bufferCapacity.toNat)

variable {s : Settings} (samples : List Sample) (marked : Landmarks)

/-- With accepted settings every part is set up and looks at what is held. -/
theorem report_eq (h : s.Valid) :
    s.report samples marked =
      let held := s.held samples
      let points := RisePipeline.rates ⟨s.rise, h.rise⟩ (beanCurve held)
      let landmarks := Landmarks.ofCurve (beanCurve held) marked s.thresholds
      { history := .ok (samples.foldl .push (.empty s.bufferCapacity.toNat h.capacity))
        transmission := .ok (Codec.transmit ⟨s.precision, h.precision⟩ held)
        chart := s.thinning.apply held
        landmarks
        rates := .ok points
        stats := some (PhaseStats.ofRates points landmarks)
        summary := Summary.ofSamples held marked.firstCrack s.thresholds } := by
  have hhistory : s.history = .ok (.empty s.bufferCapacity.toNat h.capacity : RingBuffer Sample) :=
    dif_pos h.capacity
  have hcodec : s.codec = .ok ⟨s.precision, h.precision⟩ := dif_pos h.precision
  have hheld := RingBuffer.toList_foldl_push s.bufferCapacity.toNat h.capacity samples
  unfold report
  simp only [hhistory, hcodec, Except.map, hheld, RiseSettings.rates_of_validate h.rise,
    Except.toOption, Option.map_some]
  rfl

/-- Accepted settings are those of a report without a refusal, but for the thinning: a report thins
with any settings. -/
theorem validate_eq_ok_iff_complete :
    s.validate = .ok () ↔ s.thinning.validate = .ok () ∧ (s.report samples marked).Complete := by
  constructor
  · intro hvalid
    have h := validate_eq_ok_iff.mp hvalid
    rw [report_eq samples marked h]
    exact ⟨h.thinning, ⟨_, rfl⟩, ⟨_, rfl⟩, ⟨_, rfl⟩⟩
  · rintro ⟨hthinning, ⟨ring, hring⟩, ⟨t, ht⟩, points, hpoints⟩
    -- a part that gave something was set up, whatever it was given
    exact (validate_eq_ok_iff_parts Sample).mpr ⟨exists_of_map_eq_ok hring, exists_of_map_eq_ok ht,
      hthinning, exists_of_map_eq_ok hpoints⟩

/-- What was pushed out has no say: reports on histories that end alike differ at most in the
ring. -/
theorem report_congr (h : s.validate = .ok ()) {samples samples' : List Sample}
    (hheld : s.held samples = s.held samples') :
    { s.report samples marked with history := (s.report samples' marked).history } =
      s.report samples' marked := by
  have hvalid := validate_eq_ok_iff.mp h
  simp only [report_eq _ marked hvalid, hheld]

/--
**With accepted settings a report is complete, and all of it is about what the history holds.**

The history holds the last samples, as many as it has room for. These arrive with the channels they
have, the chart shows no more of them than it may, every rate that is displayed is finite, and
statistics, landmarks and summary are taken of them and of their rates.
-/
theorem report_of_validate (h : s.validate = .ok ()) :
    let r := s.report samples marked
    let held := s.held samples
    ∃ ring t points, r.history = .ok ring ∧ r.transmission = .ok t ∧ r.rates = .ok points ∧
      ring.toList = held ∧
      t.batch.map Packed.presence = held.map Sample.presence ∧
      t.decoded.map Sample.presence = held.map Sample.presence ∧
      r.chart = s.thinning.apply held ∧ r.chart.length ≤ s.thinning.maxPoints.toNat ∧
      r.landmarks = Landmarks.ofCurve (beanCurve held) marked s.thresholds ∧
      s.rise.rates (beanCurve held) = .ok points ∧
      (∀ q ∈ points, q.rate.isFinite = true) ∧
      r.stats = some (PhaseStats.ofRates points r.landmarks) ∧
      r.summary = Summary.ofSamples held marked.firstCrack s.thresholds := by
  intro r held
  have hvalid := validate_eq_ok_iff.mp h
  have hr : r = _ := report_eq samples marked hvalid
  clear_value r
  subst hr
  obtain ⟨hbatch, hdecoded⟩ := Codec.presence_transmit ⟨s.precision, hvalid.precision⟩ held
  exact ⟨_, _, _, rfl, rfl, rfl, RingBuffer.toList_foldl_push _ hvalid.capacity samples, hbatch,
    hdecoded, rfl, Thinning.length_apply_le hvalid.thinning held, rfl,
    RiseSettings.rates_of_validate hvalid.rise _,
    fun q hq => (RisePipeline.isFinite_of_mem_rates _ hq).1, rfl, rfl⟩

/-- The default settings are accepted. -/
example : ({} : Settings).validate = .ok () := by decide +kernel

end Settings

end RoastTelemetry
