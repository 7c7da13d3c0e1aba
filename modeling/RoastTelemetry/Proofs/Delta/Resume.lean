import RoastTelemetry.Proofs.Delta.Alike

/-!
# Resuming a chain on the decoder's side

A decoder that resumes needs two things from the state: the base time, from which all offsets
count, and a reference for the first differences.

The base time is not in the batch. As long as the chain has begun, encoder and decoder both keep
the one in the state. To begin a chain the encoder takes the time of the first sample instead, and
says so only in the state it returns, which is where a decoder has to take it from.

For the reference the decoder may use the last sample that was encoded or the one that it decoded
itself: the two come to the same numbers of steps, and nothing else of them is used.
-/

namespace RoastTelemetry

/-- The decoder counts from the same base time as the encoder: it hands that time on, and puts
every sample at the stored offset from there. -/
structure Mirrors (encoded : List Packed × ChainState) (decoded : List Sample × ChainState) :
    Prop where
  base_eq : decoded.2.base = encoded.2.base
  timestamps_eq :
    decoded.1.map Sample.timestamp = encoded.1.map fun p => encoded.2.base + p.offset

namespace Codec

variable {c : Codec}

/-! ## The base time -/

theorem base_encodeAfter (first : Sample) (rest : List Sample) (state : ChainState) :
    (c.encodeAfter (first :: rest) state).2.base = state.baseFor first := by
  rw [encodeAfter_cons]
  rfl

theorem map_offset_encodeAfter (first : Sample) (rest : List Sample) (state : ChainState) :
    (c.encodeAfter (first :: rest) state).1.map Packed.offset =
      (first :: rest).map fun s => c.roundToStep (s.timestamp - state.baseFor first) := by
  rw [encodeAfter_cons]
  exact c.map_packEach (fun _ _ => rfl) _ _

theorem map_timestamp_decodeAfter (batch : List Packed) (state : ChainState) :
    (c.decodeAfter batch state).1.map Sample.timestamp =
      batch.map fun p => state.base + p.offset :=
  c.map_unpackEach (fun _ _ => rfl) _ _

/-- A decoder counts from the encoder's base time exactly if it is given that time. -/
theorem mirrors_decodeAfter_iff (encoded : List Packed × ChainState) (state : ChainState) :
    Mirrors encoded (c.decodeAfter encoded.1 state) ↔ state.base = encoded.2.base := by
  constructor
  · intro h
    exact h.base_eq
  · intro hbase
    refine ⟨hbase, ?_⟩
    rw [map_timestamp_decodeAfter, hbase]

/-- The encoder keeps the base time, unless it begins a chain at another one. -/
theorem baseFor_eq_base_iff (first : Sample) (state : ChainState) :
    state.base = state.baseFor first ↔
      state.last.isSome = true ∨ state.base = first.timestamp := by
  unfold ChainState.baseFor
  cases state.last with
  | none => simp
  | some last => simp

/--
**When a decoder resumes where the encoder did.**

The encoder counts the offsets of a batch from the base time that it returns: the one of its
state, or the time of the first sample if the chain begins there. A decoder that is given this
time mirrors it. Given the very state that the encoder was given, it does so if and only if that
has a last sample or has the time of the first sample for its base.
-/
theorem decodeAfter_mirrors_encodeAfter (c : Codec) (first : Sample) (rest : List Sample)
    (state : ChainState) :
    let encoded := c.encodeAfter (first :: rest) state
    encoded.2.base = state.baseFor first ∧
      (encoded.1.map Packed.offset =
        (first :: rest).map fun s => c.roundToStep (s.timestamp - encoded.2.base)) ∧
      Mirrors encoded (c.decodeAfter encoded.1 { state with base := encoded.2.base }) ∧
      (Mirrors encoded (c.decodeAfter encoded.1 state) ↔
        state.last.isSome = true ∨ state.base = first.timestamp) := by
  intro encoded
  have hbase : encoded.2.base = state.baseFor first := base_encodeAfter first rest state
  refine ⟨hbase, ?_, (mirrors_decodeAfter_iff _ _).mpr rfl, ?_⟩
  · rw [hbase]
    exact map_offset_encodeAfter first rest state
  · rw [mirrors_decodeAfter_iff, hbase]
    exact baseFor_eq_base_iff first state

/-- From the neutral state the decoder places a chain that begins at 1000 s at zero. -/
theorem not_mirrors_of_neutral :
    let encoded := tenths.encodeAfter [{ timestamp := 1000, beanTemp := some 200 }] {}
    ¬ Mirrors encoded (tenths.decodeAfter encoded.1 {}) := by
  intro encoded h
  have hne : ({} : ChainState).base ≠ encoded.2.base := by decide +kernel
  exact hne h.base_eq

/-! ## The reference -/

theorem length_encodeAfter (samples : List Sample) (state : ChainState) :
    (c.encodeAfter samples state).1.length = samples.length := by
  cases samples with
  | nil =>
      rw [encodeAfter_nil]
      rfl
  | cons first rest =>
      rw [encodeAfter_cons]
      exact c.length_packEach _ _ _

/-- Lists that are related sample by sample have related last samples, given some for the case
that they are empty. -/
theorem rel_getLast?_getD {α : Type} {R : α → α → Prop} {xs ys : List α}
    (h : List.Forall₂ R xs ys) :
    ∀ {x y : α}, R x y → R (xs.getLast?.getD x) (ys.getLast?.getD y) := by
  induction h with
  | nil => intro x y hxy; exact hxy
  | cons hhead _ ih =>
      intro x y _
      rw [List.getLast?_cons, List.getLast?_cons]
      exact ih hhead

/-- What is left of two references after a batch that is not empty: nothing but a sign of zero. -/
theorem alike_decodeAfter {state state' : ChainState} (hbase : state.base.Alike state'.base)
    (hlast : c.SameReference state.last state'.last) {batch : List Packed} (hne : batch ≠ []) :
    List.Forall₂ Sample.Alike (c.decodeAfter batch state).1 (c.decodeAfter batch state').1 ∧
      (c.decodeAfter batch state).2.Alike (c.decodeAfter batch state').2 := by
  obtain ⟨p, rest, rfl⟩ := List.exists_cons_of_ne_nil hne
  have hbatch : List.Forall₂ Packed.Alike (p :: rest) (p :: rest) :=
    List.forall₂_same.mpr fun q _ => .refl q
  have hsamples : List.Forall₂ Sample.Alike (c.decodeAfter (p :: rest) state).1
      (c.decodeAfter (p :: rest) state').1 := alike_unpackEach hbase hbatch hlast
  refine ⟨hsamples, hbase, ?_⟩
  cases hsamples with
  | cons hhead htail =>
      simp only [decodeAfter, unpackEach, List.getLast?_cons, Option.some_or]
      exact .some (rel_getLast?_getD htail hhead)

/-- The last sample that was encoded and the one that was decoded serve alike as references. -/
theorem sameReference_encode_decodeAfter {samples : List Sample}
    (hmoderate : ∀ channel : Channel, AllModerate (samples.map channel.ofSample)) (base : Double) :
    c.SameReference (c.encode samples).2.last
      (c.decodeAfter (c.encode samples).1 { base }).2.last := by
  cases samples with
  | nil => exact .none
  | cons first rest =>
      intro channel
      have hrelay := c.map_ofSample_unpackEach_packEach channel first.timestamp base
        (first :: rest) none none
      have hstep := inStep_getLast? (c := c) _ (hmoderate channel) .absent
      rw [Option.bind_none] at hrelay
      rw [← hrelay, channel.getLast?_map_ofSample, channel.getLast?_map_ofSample] at hstep
      simp only [encode, encodeFrom, decodeAfter, Option.or_none]
      exact hstep.sameCount

/--
**The encoder's state and the decoder's own are interchangeable.**

A second batch decodes to the same samples and the same state, but for the sign of zeros, from the
state that the encoder returned after a first batch of moderate readings, and from the one that
the decoder reached by decoding that batch, whose last sample is the rounded one. Of the readings
in the second batch nothing is asked.
-/
theorem decodeAfter_alike_of_own_state (c : Codec) (A B : List Sample)
    (hmoderate : ∀ s ∈ A, ∀ (channel : Channel) (x : Single),
      channel.ofSample s = some x → x.isFinite = true ∧ |x.value| ≤ 4096)
    (hB : B ≠ []) :
    let first := c.encode A
    let second := c.encodeAfter B first.2
    let own := (c.decodeAfter first.1 { base := first.2.base }).2
    List.Forall₂ Sample.Alike (c.decodeAfter second.1 first.2).1 (c.decodeAfter second.1 own).1 ∧
      (c.decodeAfter second.1 first.2).2.Alike (c.decodeAfter second.1 own).2 := by
  intro first second own
  have hne : second.1 ≠ [] := by
    refine List.ne_nil_of_length_pos ?_
    rw [length_encodeAfter]
    exact List.length_pos_of_ne_nil hB
  have hall : ∀ channel : Channel, AllModerate (A.map channel.ofSample) := by
    intro channel x hx
    obtain ⟨s, hs, hsx⟩ := List.mem_map.mp hx
    exact hmoderate s hs channel x hsx
  have hlast : c.SameReference first.2.last own.last := sameReference_encode_decodeAfter hall _
  have hbase : first.2.base.Alike own.base := .refl first.2.base
  exact alike_decodeAfter hbase hlast hne

/-- The encoder's last reading is 20.76, the decoder's own is 20.8. -/
theorem decodeAfter_alike_of_own_state_tenths :
    let A : List Sample := [{ timestamp := 1, beanTemp := some 20.34, setpoint := some 210 },
      { timestamp := 2, beanTemp := some 20.76, envTemp := some (-3.7) }]
    let B : List Sample := [{ timestamp := 3, beanTemp := some 21.04, setpoint := some 210.5 },
      { timestamp := 4, envTemp := some .nan }]
    (∀ s ∈ A, ∀ (channel : Channel) (x : Single),
      channel.ofSample s = some x → x.isFinite = true ∧ |x.value| ≤ 4096) ∧
    B ≠ [] ∧
    let first := tenths.encode A
    let second := tenths.encodeAfter B first.2
    let own := (tenths.decodeAfter first.1 { base := first.2.base }).2
    List.Forall₂ Sample.Alike (tenths.decodeAfter second.1 first.2).1
        (tenths.decodeAfter second.1 own).1 ∧
      (tenths.decodeAfter second.1 first.2).2.Alike (tenths.decodeAfter second.1 own).2 := by
  intro A B
  have hmoderate : ∀ s ∈ A, ∀ (channel : Channel) (x : Single),
      channel.ofSample s = some x → x.isFinite = true ∧ |x.value| ≤ 4096 := by
    have hreadings : ∀ x ∈ [(20.34 : Single), 210, 20.76, -3.7],
        x.isFinite = true ∧ |x.value| ≤ 4096 := by decide +kernel
    intro s hs channel x hx
    refine hreadings x ?_
    simp only [A, List.mem_cons, List.not_mem_nil, or_false] at hs
    rcases hs with rfl | rfl <;> cases channel <;> simp_all [Channel.ofSample]
  have hB : B ≠ [] := by simp [B]
  exact ⟨hmoderate, hB, decodeAfter_alike_of_own_state tenths A B hmoderate hB⟩

end Codec

end RoastTelemetry
