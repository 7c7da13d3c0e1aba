import RoastTelemetry.Proofs.Delta.Batches

/-!
# One channel on its way

Bean temperature, drum air temperature and setpoint are coded alike and without regard for each
other. So a statement about the readings of one of them is a statement about a list of readings,
some absent, that goes through an encoder and a decoder. The encoder refers to the reading before,
the decoder to the value it made of it, and `relay` carries both references along.
-/

namespace RoastTelemetry

/-- The channels that are stored as differences. -/
inductive Channel where
  | beanTemp
  | envTemp
  | setpoint
deriving DecidableEq

namespace Channel

/-- The reading of a channel in a sample. -/
def ofSample : Channel → Sample → Option Single
  | beanTemp, s => s.beanTemp
  | envTemp, s => s.envTemp
  | setpoint, s => s.setpoint

/-- What a packed sample stores for a channel. -/
def ofPacked : Channel → Packed → Option Single
  | beanTemp, p => p.beanTemp
  | envTemp, p => p.envTemp
  | setpoint, p => p.setpoint

/-- To look up a reading, take the sample or the list of the channel's readings. -/
theorem bind_ofSample_eq_some_iff (channel : Channel) (history : List Sample) (i : Nat)
    (x : Single) : history[i]?.bind channel.ofSample = some x ↔
      (history.map channel.ofSample)[i]? = some (some x) := by
  rw [List.getElem?_map]
  cases history[i]? with
  | none => simp
  | some s => simp

/-- What holds of all readings but one can be checked position by position. -/
theorem forall_ne_of_all (channel : Channel) (samples : List Sample) (k : Nat)
    {P : Single → Prop} [DecidablePred P]
    (h : ∀ i < samples.length, i ≠ k → (samples[i]?.bind channel.ofSample).all fun x => P x)
    (i : Nat) (x : Single) (hi : i ≠ k) (hx : samples[i]?.bind channel.ofSample = some x) :
    P x := by
  rcases Nat.lt_or_ge i samples.length with hlt | hge
  · have hall := h i hlt hi
    rw [hx] at hall
    exact of_decide_eq_true hall
  · rw [List.getElem?_eq_none hge] at hx
    cases hx

/-- The readings of a channel on both sides of a position. -/
theorem map_ofSample_eq_append (channel : Channel) {samples : List Sample} {k : Nat}
    (hk : k < samples.length) :
    samples.map channel.ofSample = (samples.take k).map channel.ofSample ++
      channel.ofSample samples[k] :: (samples.drop (k + 1)).map channel.ofSample := by
  rw [← List.map_cons, ← List.drop_eq_getElem_cons hk, ← List.map_append, List.take_append_drop]

theorem getLast?_map_ofSample (channel : Channel) (samples : List Sample) :
    (samples.map channel.ofSample).getLast?.getD none =
      samples.getLast?.bind channel.ofSample := by
  rw [List.getLast?_map]
  cases samples.getLast? with
  | none => rfl
  | some s => rfl

end Channel

/-- The channels that are stored as they are, the gains with all their bits. -/
structure Copied where
  fan : Option UInt16
  heater : Option UInt16
  mode : Option UInt8
  heaterOn : Option Bool
  kp : Option Gain
  ki : Option Gain
  kd : Option Gain
deriving DecidableEq

/-- The copied channels of a sample. -/
def Sample.copied (s : Sample) : Copied where
  fan := s.fan
  heater := s.heater
  mode := s.mode
  heaterOn := s.heaterOn
  kp := s.kp
  ki := s.ki
  kd := s.kd

/-- The copied channels of a packed sample. -/
def Packed.copied (p : Packed) : Copied where
  fan := p.fan
  heater := p.heater
  mode := p.mode
  heaterOn := p.heaterOn
  kp := p.kp
  ki := p.ki
  kd := p.kd

namespace Codec

variable (c : Codec)

/-- What becomes of readings that follow `before`, where the decoder made `after` of that one. -/
def relay : Option Single → Option Single → List (Option Single) → List (Option Single)
  | _, _, [] => []
  | before, after, x :: rest =>
    c.restore after (c.difference before x) ::
      relay x (c.restore after (c.difference before x)) rest

/-- The readings of a channel after encoding and decoding a history in one batch. -/
def decodedReadings (channel : Channel) (samples : List Sample) : List (Option Single) :=
  (c.decode (c.encode samples).1 (c.encode samples).2).map channel.ofSample

theorem ofPacked_pack (channel : Channel) (base : Double) (before : Option Sample) (s : Sample) :
    channel.ofPacked (c.pack base before s) =
      c.difference (before.bind channel.ofSample) (channel.ofSample s) := by
  cases channel with
  | beanTemp => rfl
  | envTemp => rfl
  | setpoint => rfl

theorem ofSample_unpack (channel : Channel) (base : Double) (before : Option Sample)
    (p : Packed) :
    channel.ofSample (c.unpack base before p) =
      c.restore (before.bind channel.ofSample) (channel.ofPacked p) := by
  cases channel with
  | beanTemp => rfl
  | envTemp => rfl
  | setpoint => rfl

@[simp]
theorem copied_pack (base : Double) (before : Option Sample) (s : Sample) :
    (c.pack base before s).copied = s.copied := rfl

@[simp]
theorem copied_unpack (base : Double) (before : Option Sample) (p : Packed) :
    (c.unpack base before p).copied = p.copied := rfl

/-- What does not depend on the sample before can be said of a whole batch. -/
theorem map_packEach {α : Type} {f : Packed → α} {g : Sample → α} {base : Double}
    (h : ∀ before s, f (c.pack base before s) = g s) (samples : List Sample) :
    ∀ before, (c.packEach base before samples).map f = samples.map g := by
  induction samples with
  | nil => intro before; rfl
  | cons s rest ih =>
      intro before
      rw [packEach, List.map_cons, List.map_cons, h, ih]

theorem map_unpackEach {α : Type} {f : Sample → α} {g : Packed → α} {base : Double}
    (h : ∀ before p, f (c.unpack base before p) = g p) (batch : List Packed) :
    ∀ before, (c.unpackEach base before batch).map f = batch.map g := by
  induction batch with
  | nil => intro before; rfl
  | cons p rest ih =>
      intro before
      rw [unpackEach, List.map_cons, List.map_cons, h, ih]

/-- No channel looks at another one, nor at the time. -/
theorem map_ofSample_unpackEach_packEach (channel : Channel) (base base' : Double)
    (samples : List Sample) :
    ∀ before after, (c.unpackEach base' after (c.packEach base before samples)).map
        channel.ofSample =
      c.relay (before.bind channel.ofSample) (after.bind channel.ofSample)
        (samples.map channel.ofSample) := by
  induction samples with
  | nil => intro before after; rfl
  | cons s rest ih =>
      intro before after
      rw [packEach, unpackEach, List.map_cons, List.map_cons, ih, relay, Option.bind_some,
        Option.bind_some, ofSample_unpack, ofPacked_pack]

theorem decodedReadings_eq (channel : Channel) (samples : List Sample) :
    c.decodedReadings channel samples =
      c.relay none none (samples.map channel.ofSample) := by
  cases samples with
  | nil => rfl
  | cons first rest => exact c.map_ofSample_unpackEach_packEach channel _ _ _ none none

/-- The same readings come out of any number of batches, whatever base time the decoder is given. -/
theorem map_ofSample_decodeBatches (channel : Channel) (batches : List (List Sample))
    (base : Double) :
    (c.decodeBatches (c.encodeBatches batches {}).1 { base }).1.flatten.map channel.ofSample =
      c.decodedReadings channel batches.flatten := by
  obtain ⟨base', hpacked⟩ := c.exists_encodeBatches_eq_packEach batches
  have hdecoded := c.decodeBatches_base (c.encodeBatches batches {}).1 { base }
  rw [hdecoded, hpacked, decodedReadings_eq]
  exact c.map_ofSample_unpackEach_packEach channel _ _ _ none none

/-! ## The list of readings in two parts -/

@[simp]
theorem length_relay (xs : List (Option Single)) :
    ∀ before after, (c.relay before after xs).length = xs.length := by
  induction xs with
  | nil => intro before after; rfl
  | cons x rest ih =>
      intro before after
      rw [relay, List.length_cons, List.length_cons, ih]

theorem relay_append (xs ys : List (Option Single)) :
    ∀ before after, c.relay before after (xs ++ ys) =
      c.relay before after xs ++
        c.relay (xs.getLast?.getD before) ((c.relay before after xs).getLast?.getD after)
          ys := by
  induction xs with
  | nil => intro before after; rfl
  | cons x rest ih =>
      intro before after
      rw [List.cons_append, relay, relay, ih, List.cons_append, List.getLast?_cons,
        List.getLast?_cons]
      rfl

end Codec

end RoastTelemetry
