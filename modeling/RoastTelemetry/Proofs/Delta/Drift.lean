import RoastTelemetry.Proofs.Delta.Channels
import RoastTelemetry.Proofs.Delta.Levels

/-!
# No drift along a chain

The invariant of a delta chain is not that the decoder's reference is close to the encoder's, but
that both have the same level. Differences are then differences of levels, the decoder adds them
to the level of its own reference, and what it arrives at is the level of the source. Readings may
come and go: after a gap both sides start from an absolute value.
-/

namespace RoastTelemetry.Codec

open Binary (SameNumber)

variable {c : Codec}

/-- The decoded reading counts as many steps as its source; absent goes with absent. -/
inductive InStep (c : Codec) : Option Single → Option Single → Prop where
  | absent : InStep c none none
  | present {x z : Single} : Moderate x → z.isFinite = true →
      c.level z.value = c.level x.value → InStep c (some x) (some z)

/-- Readings that are all moderate, where present. -/
def AllModerate (xs : List (Option Single)) : Prop := ∀ x, some x ∈ xs → Moderate x

theorem AllModerate.head {x : Option Single} {rest : List (Option Single)}
    (h : AllModerate (x :: rest)) : ∀ a, x = some a → Moderate a := by
  rintro a rfl
  exact h a List.mem_cons_self

theorem AllModerate.tail {x : Option Single} {rest : List (Option Single)}
    (h : AllModerate (x :: rest)) : AllModerate rest :=
  fun a ha => h a (List.mem_cons_of_mem _ ha)

/-- A value on the grid point of its source keeps step with it. -/
theorem inStep_of_denotes {x z : Single} (hx : Moderate x)
    (hz : z.Denotes (c.gridPoint (c.level x.value))) : c.InStep (some x) (some z) := by
  refine .present hx hz.isFinite_eq ?_
  rw [hz.value_eq, level_gridPoint (level_lt_maxLevel hx)]

/-- An absolute value goes through the decoder unchanged. -/
theorem restore_none_difference_none (y : Single) :
    c.restore none (c.difference none (some y)) = some (c.roundToStep y.widen).narrow :=
  congrArg some (Binary.narrow_widen _)

/-- One reading: from references in step the decoder gets to the grid point of the source. -/
theorem restore_difference {before after : Option Single} (h : c.InStep before after)
    {y : Single} (hy : Moderate y) :
    ∃ w : Single, c.restore after (c.difference before (some y)) = some w ∧
      w.Denotes (c.gridPoint (c.level y.value)) := by
  cases h with
  | absent => exact ⟨_, restore_none_difference_none y, denotes_roundToStep hy⟩
  | present hx hz hlevel =>
      refine ⟨_, rfl, ?_⟩
      have hland := denotes_landing 0 hx hy hz (by rw [hlevel, add_zero]) (by decide)
      rw [add_zero] at hland
      refine denotes_gridPoint hland ((c.abs_level_div_le hy.2).trans ?_)
      norm_num

/-- The invariant holds of the references for the next reading. -/
theorem inStep_restore {before after : Option Single} (h : c.InStep before after)
    {y : Option Single} (hy : ∀ x, y = some x → Moderate x) :
    c.InStep y (c.restore after (c.difference before y)) := by
  cases y with
  | none => exact .absent
  | some y =>
      obtain ⟨w, hw, hdenotes⟩ := restore_difference h (hy y rfl)
      rw [hw]
      exact inStep_of_denotes (hy y rfl) hdenotes

/--
**No drift.** However long the chain and whatever readings are missing, every reading is decoded
to the grid point of its own level.
-/
theorem relay_getElem? (xs : List (Option Single)) (hxs : AllModerate xs) :
    ∀ {before after : Option Single}, c.InStep before after →
      ∀ (i : Nat) (x : Single), xs[i]? = some (some x) →
        ∃ z : Single, (c.relay before after xs)[i]? = some (some z) ∧
          z.Denotes (c.gridPoint (c.level x.value)) := by
  induction xs with
  | nil => intro before after _ i x hx; simp at hx
  | cons y rest ih =>
      intro before after h i x hx
      rw [relay]
      -- the head is one step; for the rest the references are in step again
      cases i with
      | zero =>
          rw [List.getElem?_cons_zero, Option.some.injEq] at hx
          obtain ⟨w, hw, hdenotes⟩ := restore_difference h (hxs.head x hx)
          rw [hx, hw]
          exact ⟨w, rfl, hdenotes⟩
      | succ i =>
          rw [List.getElem?_cons_succ] at hx ⊢
          exact ih hxs.tail (inStep_restore h hxs.head) i x hx

/-- The references after a list of readings are in step too. -/
theorem inStep_getLast? (xs : List (Option Single)) (hxs : AllModerate xs) :
    ∀ {before after : Option Single}, c.InStep before after →
      c.InStep (xs.getLast?.getD before) ((c.relay before after xs).getLast?.getD after) := by
  induction xs with
  | nil => intro before after h; exact h
  | cons y rest ih =>
      intro before after h
      rw [relay, List.getLast?_cons, List.getLast?_cons]
      exact ih hxs.tail (inStep_restore h hxs.head)

/-! ## In the terms of the arithmetic used -/

/-- The rounded quotient of the rounded step count is the grid point. -/
theorem sameNumber_rounded {x z : Single} (hx : Moderate x)
    (hz : z.Denotes (c.gridPoint (c.level x.value))) :
    z.SameNumber ((x.widen * c.precision).round / c.precision).narrow :=
  ⟨_, hz, denotes_roundToStep hx⟩

theorem within_of_denotes {x z : Single} (hx : Moderate x)
    (hz : z.Denotes (c.gridPoint (c.level x.value))) : c.Within x z := by
  refine ⟨hz.isFinite_eq, ?_⟩
  rw [hz.value_eq]
  exact c.abs_gridPoint_level_sub_le hx.2

/--
**Decoded readings depend on their sources only.**

For every history of moderate readings and every way of cutting it into batches, each reading
decodes, in one batch or batch after batch, to the number that it has after rounding to a step and
narrowing, and so to within half a step and half the spacing of single-precision values.
-/
theorem decoded_eq_rounded (c : Codec) (samples : List Sample)
    (hmoderate : ∀ s ∈ samples, ∀ (channel : Channel) (x : Single),
      channel.ofSample s = some x → x.isFinite = true ∧ |x.value| ≤ 4096)
    (batches : List (List Sample)) (hcut : batches.flatten = samples) (base : Double)
    (channel : Channel) (i : Nat) (x : Single)
    (hx : samples[i]?.bind channel.ofSample = some x) :
    ∃ z,
      (c.decode (c.encode samples).1 (c.encode samples).2)[i]?.bind channel.ofSample = some z ∧
      (c.decodeBatches (c.encodeBatches batches {}).1 { base }).1.flatten[i]?.bind
        channel.ofSample = some z ∧
      z.SameNumber ((x.widen * c.precision).round / c.precision).narrow ∧
      z.isFinite = true ∧
      |z.value - x.value| ≤ 1 / (2 * c.precision.value) + 1 / 2 ^ 11 := by
  have hall : AllModerate (samples.map channel.ofSample) := by
    intro y hy
    obtain ⟨s, hs, hsy⟩ := List.mem_map.mp hy
    exact hmoderate s hs channel y hsy
  have hxi := (channel.bind_ofSample_eq_some_iff samples i x).mp hx
  have hxmod : Moderate x := hall x (List.mem_of_getElem? hxi)
  obtain ⟨z, hz, hdenotes⟩ := relay_getElem? (c := c) _ hall
    .absent i x hxi
  rw [← decodedReadings_eq] at hz
  refine ⟨z, (channel.bind_ofSample_eq_some_iff _ i z).mpr hz,
    (channel.bind_ofSample_eq_some_iff _ i z).mpr ?_, sameNumber_rounded hxmod hdenotes,
    within_of_denotes hxmod hdenotes⟩
  -- the batches, too, come down to the readings of the whole history
  rw [map_ofSample_decodeBatches, hcut]
  exact hz

/-- The coder used when no precision is given. -/
def tenths : Codec where
  precision := defaultPrecision
  precision_range := by decide +kernel

/-- Three batches, one of them empty, and a reading after a gap in its channel. -/
theorem decoded_eq_rounded_tenths :
    let first : Sample := { timestamp := 1, beanTemp := some 20.34, setpoint := some 210 }
    let second : Sample := { timestamp := 2, envTemp := some (-3.7) }
    let third : Sample := { timestamp := 3, beanTemp := some 20.76, setpoint := some 210.5 }
    let samples := [first, second, third]
    (∀ s ∈ samples, ∀ (channel : Channel) (x : Single),
      channel.ofSample s = some x → x.isFinite = true ∧ |x.value| ≤ 4096) ∧
    [[first, second], [], [third]].flatten = samples ∧
    samples[2]?.bind Channel.beanTemp.ofSample = some 20.76 ∧
    ∃ z : Single,
      (tenths.decode (tenths.encode samples).1 (tenths.encode samples).2)[2]?.bind
        Channel.beanTemp.ofSample = some z ∧
      (tenths.decodeBatches (tenths.encodeBatches [[first, second], [], [third]] {}).1
        { base := 1 }).1.flatten[2]?.bind Channel.beanTemp.ofSample = some z ∧
      z.SameNumber (((20.76 : Single).widen * tenths.precision).round /
        tenths.precision).narrow ∧
      z.isFinite = true ∧
      |z.value - (20.76 : Single).value| ≤ 1 / (2 * tenths.precision.value) + 1 / 2 ^ 11 := by
  intro first second third samples
  have hmoderate : ∀ s ∈ samples, ∀ (channel : Channel) (x : Single),
      channel.ofSample s = some x → x.isFinite = true ∧ |x.value| ≤ 4096 := by
    have hreadings : ∀ x ∈ [(20.34 : Single), 210, -3.7, 20.76, 210.5],
        x.isFinite = true ∧ |x.value| ≤ 4096 := by decide +kernel
    intro s hs channel x hx
    refine hreadings x ?_
    simp only [samples, List.mem_cons, List.not_mem_nil, or_false] at hs
    rcases hs with rfl | rfl | rfl <;> cases channel <;>
      simp_all [first, second, third, Channel.ofSample]
  exact ⟨hmoderate, rfl, rfl, decoded_eq_rounded tenths samples hmoderate
    [[first, second], [], [third]] rfl 1 .beanTemp 2 20.76 rfl⟩

end RoastTelemetry.Codec
