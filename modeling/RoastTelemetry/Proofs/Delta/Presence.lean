import RoastTelemetry.Proofs.Delta.Drift

/-!
# Absent stays absent

Packing and unpacking treat a channel that was not read in one way only: they hand the absence on.
So which channels a sample has is the same in the source, in the packed sample and in the decoded
one, whatever the values are.

From that follows what makes the coding safe at all. A stored number does not say whether it is a
reading or a difference. The encoder decides that by looking for the channel in the sample before,
and the decoder by looking for it in the sample that it decoded before. They look at different
samples, but these have the same channels.
-/

namespace RoastTelemetry

/-- Which of its optional channels a sample has, in the order of its fields. -/
def Sample.presence (s : Sample) : List Bool :=
  [s.beanTemp.isSome, s.envTemp.isSome, s.setpoint.isSome, s.fan.isSome, s.heater.isSome,
    s.mode.isSome, s.heaterOn.isSome, s.rateOfRise.isSome, s.kp.isSome, s.ki.isSome, s.kd.isSome]

/-- Which of its optional channels a packed sample has, in the order of its fields. -/
def Packed.presence (p : Packed) : List Bool :=
  [p.beanTemp.isSome, p.envTemp.isSome, p.setpoint.isSome, p.fan.isSome, p.heater.isSome,
    p.mode.isSome, p.heaterOn.isSome, p.rateOfRise.isSome, p.kp.isSome, p.ki.isSome, p.kd.isSome]

namespace Channel

/-- Whether a channel has a reading can be told from the presence of a sample's channels. -/
theorem isSome_ofSample_congr (channel : Channel) {s t : Sample} (h : s.presence = t.presence) :
    (channel.ofSample s).isSome = (channel.ofSample t).isSome := by
  simp only [Sample.presence, List.cons.injEq] at h
  obtain ⟨hbean, henv, hset, -⟩ := h
  cases channel with
  | beanTemp => exact hbean
  | envTemp => exact henv
  | setpoint => exact hset

/-- The last samples of two lists with the same channels have the same channels. -/
theorem isSome_getLast?_bind_congr (channel : Channel) {xs ys : List Sample}
    (h : xs.map Sample.presence = ys.map Sample.presence) :
    (xs.getLast?.bind channel.ofSample).isSome = (ys.getLast?.bind channel.ofSample).isSome := by
  have hlast := congrArg List.getLast? h
  rw [List.getLast?_map, List.getLast?_map] at hlast
  cases hx : xs.getLast? with
  | none =>
      rw [hx, Option.map_none] at hlast
      rw [Option.map_eq_none_iff.mp hlast.symm]
  | some s =>
      rw [hx, Option.map_some] at hlast
      obtain ⟨t, ht, hpresence⟩ := Option.map_eq_some_iff.mp hlast.symm
      rw [ht]
      exact channel.isSome_ofSample_congr hpresence.symm

end Channel

namespace Codec

variable (c : Codec)

/-! ## One sample -/

@[simp]
theorem presence_pack (base : Double) (before : Option Sample) (s : Sample) :
    (c.pack base before s).presence = s.presence := by
  simp [Packed.presence, Sample.presence, pack, difference]

@[simp]
theorem presence_unpack (base : Double) (before : Option Sample) (p : Packed) :
    (c.unpack base before p).presence = p.presence := by
  simp [Packed.presence, Sample.presence, unpack, restore]

/--
How a reading is stored and restored, where `before` is the reading before it in the source and
`after` the one decoded before it: as it is on both sides, or as a difference on both sides.
-/
inductive SameForm (c : Codec) (before after : Option Single) :
    Option Single → Option Single → Option Single → Prop where
  | absent : SameForm c before after none none none
  | whole {x : Single} : before = none → after = none →
      SameForm c before after (some x) (some (c.roundToStep x.widen).narrow)
        (some (c.roundToStep x.widen).narrow)
  | step {r r' x stored : Single} : before = some r → after = some r' →
      stored = ((c.steps x.widen - c.steps r.widen) / c.precision).narrow →
      SameForm c before after (some x) (some stored)
        (some ((c.steps r'.widen + c.steps stored.widen) / c.precision).narrow)

/-- All that the two sides have to agree on is whether there is a reading before. -/
theorem sameForm_of_isSome_eq {before after : Option Single} (h : before.isSome = after.isSome)
    (x : Option Single) :
    c.SameForm before after x (c.difference before x)
      (c.restore after (c.difference before x)) := by
  cases x with
  | none => exact .absent
  | some x =>
      cases before with
      | none =>
          cases after with
          | none =>
              rw [restore_none_difference_none]
              exact .whole rfl rfl
          | some r' => exact Bool.noConfusion h
      | some r =>
          cases after with
          | none => exact Bool.noConfusion h
          | some r' => exact .step rfl rfl rfl

/-! ## A batch -/

/-- The encoder's reference at a position is the sample before it in the source. -/
theorem getElem?_packEach (base : Double) (samples : List Sample) :
    ∀ before (i : Nat), (c.packEach base before samples)[i]? =
      samples[i]?.map (c.pack base ((samples.take i).getLast?.or before)) := by
  induction samples with
  | nil => intro before i; rfl
  | cons s rest ih =>
      intro before i
      cases i with
      | zero => rfl
      | succ i =>
          rw [packEach, List.getElem?_cons_succ, List.getElem?_cons_succ, ih, List.take_succ_cons,
            getLast?_cons_or]

/-- The decoder's reference at a position is the sample before it in its own output. -/
theorem getElem?_unpackEach (base : Double) (batch : List Packed) :
    ∀ before (i : Nat), (c.unpackEach base before batch)[i]? =
      batch[i]?.map
        (c.unpack base (((c.unpackEach base before batch).take i).getLast?.or before)) := by
  induction batch with
  | nil => intro before i; rfl
  | cons p rest ih =>
      intro before i
      cases i with
      | zero => rfl
      | succ i =>
          rw [unpackEach, List.getElem?_cons_succ, List.getElem?_cons_succ, ih, List.take_succ_cons,
            getLast?_cons_or]

/-- At every position both sides take the stored number for the same thing. -/
theorem sameForm_unpackEach_packEach (channel : Channel) (base base' : Double)
    (samples : List Sample) (i : Nat) :
    let packed := c.packEach base none samples
    let decoded := c.unpackEach base' none packed
    c.SameForm ((samples.take i).getLast?.bind channel.ofSample)
      ((decoded.take i).getLast?.bind channel.ofSample) (samples[i]?.bind channel.ofSample)
      (packed[i]?.bind channel.ofPacked) (decoded[i]?.bind channel.ofSample) := by
  intro packed decoded
  have hpacked : packed[i]? = samples[i]?.map (c.pack base (samples.take i).getLast?) := by
    rw [getElem?_packEach, Option.or_none]
  have hdecoded : decoded[i]? = packed[i]?.map (c.unpack base' (decoded.take i).getLast?) := by
    rw [getElem?_unpackEach, Option.or_none]
  -- the samples before the position have the same channels on both sides
  have hbefore : (samples.take i).map Sample.presence = (decoded.take i).map Sample.presence := by
    rw [List.map_take, List.map_take, c.map_unpackEach (c.presence_unpack _),
      c.map_packEach (c.presence_pack _)]
  rw [hdecoded, hpacked]
  cases samples[i]? with
  | none => exact .absent
  | some s =>
      rw [Option.map_some, Option.map_some, Option.bind_some, Option.bind_some, Option.bind_some,
        ofSample_unpack, ofPacked_pack]
      exact c.sameForm_of_isSome_eq (channel.isSome_getLast?_bind_congr hbefore) _

/-! ## Any number of batches -/

/--
**Absent stays absent, and no difference is taken for a reading.**

For arbitrary values and every way of cutting a history into batches, the decoded history has as
many samples as the source. At each position the eleven optional channels are present in the
source, in the packed sample and in the decoded sample alike; the copied channels come out as they
went in, the gains with every bit of their words; and a reading of a coded channel is stored whole
if and only if it is read back whole.
-/
theorem presence_kept (batches : List (List Sample)) (base : Double) :
    let history := batches.flatten
    let packed := (c.encodeBatches batches {}).1
    let decoded := (c.decodeBatches packed { base }).1.flatten
    decoded.length = history.length ∧
      packed.flatten.map Packed.presence = history.map Sample.presence ∧
      decoded.map Sample.presence = history.map Sample.presence ∧
      packed.flatten.map Packed.copied = history.map Sample.copied ∧
      decoded.map Sample.copied = history.map Sample.copied ∧
      ∀ (i : Nat) (channel : Channel),
        c.SameForm ((history.take i).getLast?.bind channel.ofSample)
          ((decoded.take i).getLast?.bind channel.ofSample)
          (history[i]?.bind channel.ofSample) (packed.flatten[i]?.bind channel.ofPacked)
          (decoded[i]?.bind channel.ofSample) := by
  intro history packed decoded
  obtain ⟨base', hpacked⟩ : ∃ base', packed.flatten = c.packEach base' none history :=
    c.exists_encodeBatches_eq_packEach batches
  have hdecoded : decoded = c.unpackEach base none packed.flatten :=
    c.decodeBatches_base packed { base }
  rw [hdecoded, hpacked]
  have hpresence := c.map_packEach (c.presence_pack base') history none
  have hcopied := c.map_packEach (c.copied_pack base') history none
  refine ⟨?_, hpresence, ?_, hcopied, ?_, ?_⟩
  · rw [length_unpackEach, length_packEach]
  · rw [c.map_unpackEach (c.presence_unpack _), hpresence]
  · rw [c.map_unpackEach (c.copied_unpack _), hcopied]
  · intro i channel
    exact c.sameForm_unpackEach_packEach channel base' base history i

/-- Gains that are no number keep sign and payload, although they all have the same value. -/
example :
    let gains : List Gain := [⟨0x7fc01234⟩, ⟨0xffc00000⟩]
    let history : List Sample := gains.map fun g => { kp := some g }
    (tenths.decode (tenths.encode history).1 (tenths.encode history).2).map Sample.kp =
        gains.map some ∧
      gains.map Gain.value = [.nan, .nan] := by
  decide +kernel

end Codec

end RoastTelemetry
