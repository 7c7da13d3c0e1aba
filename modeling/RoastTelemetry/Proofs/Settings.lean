import RoastTelemetry.Proofs.Rise.Pipeline
import RoastTelemetry.Settings

/-!
# Settings that are accepted

`validate` asks the parts one after the other whether they could be set up. What it accepts sets up
each of them, and settings with which the history, the codec and the rate of rise can be set up are
refused for the thinning only.
-/

namespace RoastTelemetry.Settings

/-- What `validate` accepts. -/
structure Valid (s : Settings) : Prop where
  capacity : RingBuffer.minCapacity ≤ s.bufferCapacity.toNat
  precision : s.precision.isFinite ∧ 0 < s.precision ∧ s.precision ≤ Codec.maxPrecision
  thinning : s.thinning.validate = .ok ()
  rise : s.rise.validate = .ok ()

theorem validate_eq_ok_iff {s : Settings} : s.validate = .ok () ↔ s.Valid := by
  have hvalidate : s.validate =
      if s.bufferCapacity.toNat < RingBuffer.minCapacity then .error .zeroCapacity
      else s.codec >>= fun _ => s.thinning.validate >>= fun _ => s.rise.validate := by
    unfold validate
    split <;> rfl
  rw [hvalidate]
  constructor
  · intro h
    split at h
    · cases h
    · rename_i hcapacity
      cases hcodec : s.codec with
      | error refusal => rw [hcodec] at h; cases h
      | ok c =>
          cases hthinning : s.thinning.validate with
          | error refusal => rw [hcodec, hthinning] at h; cases h
          | ok u =>
              rw [hcodec, hthinning] at h
              refine ⟨Nat.le_of_not_lt hcapacity, ?_, hthinning, h⟩
              unfold codec Codec.ofPrecision at hcodec
              split at hcodec
              · assumption
              · cases hcodec
  · intro h
    have hcodec : s.codec = .ok ⟨s.precision, h.precision⟩ := dif_pos h.precision
    rw [if_neg (Nat.not_lt.mpr h.capacity), hcodec]
    dsimp only [bind, Except.bind]
    rw [h.thinning]
    exact h.rise

/-- **Accepted settings are those that set up every part.** -/
theorem validate_eq_ok_iff_parts (α : Type) {s : Settings} :
    s.validate = .ok () ↔
      (∃ ring : RingBuffer α, s.history = .ok ring) ∧ (∃ c, s.codec = .ok c) ∧
        s.thinning.validate = .ok () ∧ ∃ p, s.risePipeline = .ok p := by
  rw [validate_eq_ok_iff]
  constructor
  · intro h
    refine ⟨⟨.empty s.bufferCapacity.toNat h.capacity, dif_pos h.capacity⟩,
      ⟨⟨s.precision, h.precision⟩, dif_pos h.precision⟩, h.thinning, ⟨s.rise, h.rise⟩, ?_⟩
    exact RisePipeline.ofSettings_of_validate h.rise
  · rintro ⟨⟨ring, hring⟩, ⟨c, hc⟩, hthinning, p, hp⟩
    refine ⟨?_, ?_, hthinning, ?_⟩
    · by_contra hcapacity
      unfold history RingBuffer.ofCapacity at hring
      rw [dif_neg hcapacity] at hring
      cases hring
    · by_contra hprecision
      unfold codec Codec.ofPrecision at hc
      rw [dif_neg hprecision] at hc
      cases hc
    · exact RisePipeline.validate_of_ofSettings hp

end RoastTelemetry.Settings
