import RoastTelemetry.Proofs.Delta.Slip
import RoastTelemetry.Proofs.Delta.Alike

/-!
# One bad reading in a channel

A reading out of range is stored as a difference like any other, and so is the reading after it.
The two differences need not cancel. A NaN has no step count, opposite infinities have no sum, and
the step count of a large reading is not found again from its rounded value. What is left over
when the readings are moderate again stays in the decoder's reference up to the next gap.

So the good readings are safe exactly when the reading after the bad one is, and the steps by
which it is off do no harm to any reading up to that gap.
-/

namespace RoastTelemetry.Codec

variable {c : Codec}

/--
What a reading decodes to when the one before it is `bad`, which in turn follows `before`. The
decoder's own reference is not asked for: it counts as many steps as `before` does.
-/
def afterFault (c : Codec) (before : Option Single) (bad next : Single) : Option Single :=
  c.restore
    (c.restore (before.map fun r => (c.roundToStep r.widen).narrow)
      (c.difference before (some bad)))
    (c.difference (some bad) (some next))

/--
What has to hold for a bad reading to do no harm: the one after it decodes to a value close to it,
and the steps by which that value is off leave all readings up to the next gap close to theirs.
-/
def Harmless (c : Codec) (before : Option Single) (bad next : Single)
    (rest : List (Option Single)) : Prop :=
  ∃ z, c.afterFault before bad next = some z ∧ c.Within next z ∧
    ∀ w, some w ∈ rest.takeWhile Option.isSome →
      |c.gridPoint (c.level w.value + (c.level z.value - c.level next.value)) - w.value| ≤
        1 / (2 * c.perUnit) + 1 / 2 ^ 11

/-! ## Past the bad reading -/

/-- The same stored value, added to step counts that are alike. -/
theorem alike_narrow_add {q q' : Double} (h : q.Alike q') (stored : Double) :
    ((q + stored) / c.precision).narrow.Alike ((q' + stored) / c.precision).narrow :=
  (alike_div_precision (h.add_right stored)).convert .single

/-- The decoder makes of the bad reading the same as if its reference were the rounded source. -/
theorem alike_restore_of_inStep {before after : Option Single} (h : c.InStep before after)
    (stored : Single) :
    ∃ v v', c.restore after (some stored) = some v ∧
      c.restore (before.map fun r => (c.roundToStep r.widen).narrow) (some stored) = some v' ∧
      v.Alike v' := by
  cases h with
  | absent => exact ⟨_, _, rfl, rfl, .inl rfl⟩
  | @present x z hx hz hlevel =>
      refine ⟨_, _, rfl, rfl, alike_narrow_add ?_ _⟩
      have hrounded := c.denotes_steps_widen (c.denotes_roundToStep hx)
      rw [level_gridPoint (level_lt_maxLevel hx), ← hlevel] at hrounded
      exact (c.denotes_steps_widen (Binary.denotes_value hz)).alike hrounded

/-- So the reading after the bad one decodes as `afterFault` says, up to the sign of a zero. -/
theorem alike_afterFault {before after : Option Single} (h : c.InStep before after)
    (bad next : Single) :
    ∃ v z z', c.restore after (c.difference before (some bad)) = some v ∧
      c.restore (some v) (c.difference (some bad) (some next)) = some z ∧
      c.afterFault before bad next = some z' ∧ z.Alike z' := by
  obtain ⟨stored, hstored⟩ : ∃ s, c.difference before (some bad) = some s := ⟨_, rfl⟩
  obtain ⟨v, v', hv, hv', halike⟩ := alike_restore_of_inStep h stored
  unfold afterFault
  rw [hstored, hv, hv']
  exact ⟨v, _, _, rfl, rfl, rfl, alike_narrow_add (SameCount.of_alike halike) _⟩

theorem Within.of_alike {x z z' : Single} (h : c.Within x z) (halike : z.Alike z') :
    c.Within x z' := by
  have hdenotes := halike.denotes (Binary.denotes_value h.1)
  refine ⟨hdenotes.isFinite_eq, ?_⟩
  rw [hdenotes.value_eq]
  exact h.2

/-- The readings after a bad one that follows a chain in step. -/
theorem allWithin_iff_harmless {before after : Option Single} (h : c.InStep before after)
    (bad next : Single) (hnext : Moderate next) (rest : List (Option Single))
    (hrest : AllModerate rest) :
    c.AllWithin (some next :: rest) (c.relay (some bad)
        (c.restore after (c.difference before (some bad))) (some next :: rest)) ↔
      c.Harmless before bad next rest := by
  obtain ⟨v, z, z', hv, hz, hz', halike⟩ := alike_afterFault h bad next
  have hslip : ∀ {a : Single}, c.Within next a →
      |c.level a.value - c.level next.value| ≤ 1 ∧
        c.level a.value = c.level next.value + (c.level a.value - c.level next.value) :=
    fun ha => ⟨abs_level_sub_level_le hnext.2 ha.2, by omega⟩
  rw [hv, relay, hz, allWithin_cons_some]
  unfold Harmless
  constructor
  · rintro ⟨hclose, hothers⟩
    obtain ⟨hsmall, hlevel⟩ := hslip hclose
    have hvalue := (halike.denotes (Binary.denotes_value hclose.1)).value_eq
    refine ⟨z', hz', hclose.of_alike halike, ?_⟩
    rw [hvalue]
    exact (allWithin_relay_iff hsmall rest hrest hnext hclose.1 hlevel).mp hothers
  · rintro ⟨a, ha, hclose, hothers⟩
    have heq : z' = a := Option.some.inj (hz'.symm.trans ha)
    subst heq
    have hclose' := hclose.of_alike halike.symm
    obtain ⟨hsmall, hlevel⟩ := hslip hclose'
    have hvalue := (halike.denotes (Binary.denotes_value hclose'.1)).value_eq
    rw [hvalue] at hothers
    exact ⟨hclose', (allWithin_relay_iff hsmall rest hrest hnext hclose'.1 hlevel).mpr hothers⟩

/-! ## NaN and the infinities -/

/-- The sign of the precision is known, and it is not zero. -/
theorem precision_eq_finite (c : Codec) :
    ∃ code, c.precision = .finite false code ∧ code.val ≠ 0 := by
  have hpos := c.perUnit_pos
  obtain ⟨negative, code, hcode, hvalue⟩ := c.denotes_perUnit.exists_finite
  have hone := Format.double.one_cast_pos
  rw [hvalue, Binary.signed_cast] at hpos
  have hunits : (0 : ℚ) ≤ Format.double.units code := Nat.cast_nonneg _
  cases negative with
  | true =>
      have hneg : (-(Format.double.units code : ℚ)) / Format.double.one ≤ 0 :=
        div_nonpos_of_nonpos_of_nonneg (by linarith) hone.le
      simp only [if_true] at hpos
      linarith
  | false =>
      refine ⟨code, hcode, ?_⟩
      intro h0
      rw [h0, Format.units_zero, Nat.cast_zero, if_neg Bool.false_ne_true, zero_div] at hpos
      exact lt_irrefl 0 hpos

theorem steps_infinity (negative : Bool) : c.steps (.infinity negative) = .infinity negative := by
  obtain ⟨code, hcode, hne⟩ := c.precision_eq_finite
  have hmul : (.infinity negative : Double) * .finite false code = .infinity (negative ^^ false) :=
    if_neg hne
  unfold steps
  rw [hcode, hmul, Bool.xor_false]
  rfl

theorem infinity_div_precision (negative : Bool) :
    (.infinity negative : Double) / c.precision = .infinity negative := by
  obtain ⟨code, hcode, -⟩ := c.precision_eq_finite
  have hdiv : (.infinity negative : Double) / .finite false code = .infinity (negative ^^ false) :=
    rfl
  rw [hcode, hdiv, Bool.xor_false]

theorem isFinite_steps_widen {x : Single} (h : x.isFinite = true) :
    (c.steps x.widen).isFinite = true :=
  (c.denotes_steps_widen (Binary.denotes_value h)).isFinite_eq

/-- An infinite reading is stored as that infinity. -/
theorem difference_infinity {before : Option Single}
    (hbefore : ∀ r, before = some r → r.isFinite = true) (negative : Bool) :
    c.difference before (some (.infinity negative)) = some (.infinity negative) := by
  have hwiden : (.infinity negative : Single).widen = .infinity negative := rfl
  cases before with
  | none =>
      simp only [difference, roundToStep, Option.map_some]
      rw [hwiden, steps_infinity, infinity_div_precision]
      rfl
  | some r =>
      simp only [difference, Option.map_some]
      rw [hwiden, steps_infinity, Binary.infinity_sub (isFinite_steps_widen (hbefore r rfl)),
        infinity_div_precision]
      rfl

/-- And it is restored as it is. -/
theorem restore_infinity {reference : Option Single}
    (hreference : ∀ r, reference = some r → r.isFinite = true) (negative : Bool) :
    c.restore reference (some (.infinity negative)) = some (.infinity negative) := by
  have hwiden : (.infinity negative : Single).widen = .infinity negative := rfl
  cases reference with
  | none => rfl
  | some r =>
      simp only [restore, Option.map_some]
      rw [hwiden, steps_infinity, Binary.add_infinity (isFinite_steps_widen (hreference r rfl)),
        infinity_div_precision]
      rfl

/-- What is stored as a NaN is restored as one, whatever it is added to. -/
theorem restore_nan (reference : Option Single) : c.restore reference (some .nan) = some .nan := by
  have hsteps : c.steps (Binary.widen .nan) = .nan := rfl
  cases reference with
  | none => rfl
  | some r =>
      simp only [restore, Option.map_some]
      rw [hsteps, Binary.add_nan]
      rfl

/--
**A reading that is no number takes the next one with it.**

After a NaN or an infinity a moderate reading is decoded to NaN.
-/
theorem afterFault_of_not_finite {before : Option Single}
    (hbefore : ∀ r, before = some r → Moderate r) {bad : Single} (hbad : bad.isFinite = false)
    {next : Single} (hnext : Moderate next) : c.afterFault before bad next = some .nan := by
  unfold afterFault
  cases bad with
  | nan =>
      -- the difference to a NaN is one, whatever the decoder made of the bad reading
      have hstored : c.difference (some .nan) (some next) = some .nan := by
        simp only [difference, Option.map_some]
        have hsub : ∀ q : Double, q - c.steps (Binary.widen .nan) = .nan := Binary.add_nan
        rw [hsub]
        rfl
      rw [hstored, restore_nan]
  | infinity negative =>
      have hrounded : ∀ r, (before.map fun r => (c.roundToStep r.widen).narrow) = some r →
          r.isFinite = true := by
        intro r hr
        obtain ⟨a, ha, rfl⟩ := Option.map_eq_some_iff.mp hr
        exact (denotes_roundToStep (hbefore a ha)).isFinite_eq
      rw [difference_infinity (fun r hr => (hbefore r hr).1), restore_infinity hrounded]
      have hwiden : ∀ sign, (.infinity sign : Single).widen = .infinity sign := fun _ => rfl
      -- the difference to an infinity is the opposite one
      have hstored : c.difference (some (.infinity negative)) (some next) =
          some (.infinity !negative) := by
        simp only [difference, Option.map_some]
        have hsub : c.steps next.widen - .infinity negative = .infinity !negative :=
          Binary.add_infinity (isFinite_steps_widen hnext.1) _
        rw [hwiden, steps_infinity, hsub, infinity_div_precision]
        rfl
      -- and the decoder adds it to the infinity that it holds
      rw [hstored]
      simp only [restore, Option.map_some]
      rw [hwiden, hwiden, steps_infinity, steps_infinity, Binary.infinity_add_infinity_not]
      rfl
  | finite negative code => exact Bool.noConfusion hbad

theorem not_harmless_of_not_finite {before : Option Single}
    (hbefore : ∀ r, before = some r → Moderate r) {bad : Single} (hbad : bad.isFinite = false)
    {next : Single} (hnext : Moderate next) (rest : List (Option Single)) :
    ¬ c.Harmless before bad next rest := by
  rintro ⟨z, hz, hwithin, _⟩
  rw [afterFault_of_not_finite hbefore hbad hnext, Option.some.injEq] at hz
  rw [← hz] at hwithin
  exact Bool.noConfusion hwithin.1

/--
**A NaN stays until the next gap.**

A reference that is NaN makes a NaN of every reading, whatever is stored for it.
-/
theorem takeWhile_relay_nan (rest : List (Option Single)) :
    ∀ before, (c.relay before (some .nan) rest).takeWhile Option.isSome =
      (rest.takeWhile Option.isSome).map fun _ => some .nan := by
  induction rest with
  | nil => intro before; rfl
  | cons x rest ih =>
      intro before
      cases x with
      | none => rfl
      | some y =>
          have hhead : c.restore (some .nan) (c.difference before (some y)) = some .nan := rfl
          rw [relay, hhead, List.takeWhile_cons_of_pos rfl, List.takeWhile_cons_of_pos rfl,
            List.map_cons, ih]

/--
**A reading that is no number takes all others with it, up to the next gap.**

Every reading between it and the gap is decoded to NaN, however many there are.
-/
theorem takeWhile_relay_of_not_finite {before after : Option Single} (h : c.InStep before after)
    {bad : Single} (hbad : bad.isFinite = false) {next : Single} (hnext : Moderate next)
    (rest : List (Option Single)) :
    ((c.relay before after (some bad :: some next :: rest)).drop 1).takeWhile Option.isSome =
      ((some next :: rest).takeWhile Option.isSome).map fun _ => some .nan := by
  have hbefore : ∀ r, before = some r → Moderate r := by
    rintro r rfl
    cases h with
    | present hx _ _ => exact hx
  obtain ⟨v, z, z', hv, hz, hz', halike⟩ := alike_afterFault h bad next
  rw [afterFault_of_not_finite hbefore hbad hnext, Option.some.injEq] at hz'
  have hnan : z = .nan := by
    rw [← hz'] at halike
    rcases halike with heq | ⟨_, hfin⟩
    · exact heq
    · exact Bool.noConfusion hfin.isFinite_eq
  rw [relay, hv, relay, hz, hnan, List.drop_one, List.tail_cons,
    List.takeWhile_cons_of_pos rfl, List.takeWhile_cons_of_pos rfl, List.map_cons,
    takeWhile_relay_nan]

/-! ## The whole channel -/

/-- Where all readings before a position are fine, only the ones after it are left to look at. -/
theorem forall_ne_iff_allWithin {xs zs : List (Option Single)} (m m' : Option Single)
    {rest rest' : List (Option Single)} (hlength : zs.length = xs.length)
    (h : c.AllWithin xs zs) :
    (∀ (i : Nat) (x : Single), i ≠ xs.length → (xs ++ m :: rest)[i]? = some (some x) →
        ∃ z, (zs ++ m' :: rest')[i]? = some (some z) ∧ c.Within x z) ↔
      c.AllWithin rest rest' := by
  constructor
  · intro hall i x hx
    obtain ⟨z, hz, hwithin⟩ := hall (xs.length + (i + 1)) x (by omega) (by
      rw [List.getElem?_append_right (by omega), Nat.add_sub_cancel_left]
      exact hx)
    rw [List.getElem?_append_right (by omega), hlength, Nat.add_sub_cancel_left] at hz
    exact ⟨z, hz, hwithin⟩
  · intro hrest i x hne hx
    rcases Nat.lt_or_gt_of_ne hne with hlt | hgt
    · rw [List.getElem?_append_left hlt] at hx
      rw [List.getElem?_append_left (by omega)]
      exact h i x hx
    · obtain ⟨j, rfl⟩ : ∃ j, i = xs.length + (j + 1) := ⟨i - xs.length - 1, by omega⟩
      rw [List.getElem?_append_right (by omega), Nat.add_sub_cancel_left] at hx
      rw [List.getElem?_append_right (by omega), hlength, Nat.add_sub_cancel_left]
      exact hrest j x hx

/-- The readings of one channel, with any reading between two lists of moderate ones. -/
theorem forall_ne_within_iff (xs : List (Option Single)) (m : Option Single)
    (rest : List (Option Single)) (hxs : AllModerate xs) (hrest : AllModerate rest) :
    (∀ (i : Nat) (x : Single), i ≠ xs.length → (xs ++ m :: rest)[i]? = some (some x) →
        ∃ z, (c.relay none none (xs ++ m :: rest))[i]? = some (some z) ∧ c.Within x z) ↔
      ∀ bad next, m = some bad → rest[0]? = some (some next) →
        c.Harmless (xs.getLast?.getD none) bad next (rest.drop 1) := by
  have hstep := inStep_getLast? (c := c) xs hxs .absent
  rw [relay_append, relay, forall_ne_iff_allWithin m _ (length_relay ..)
    (allWithin_of_inStep hxs .absent)]
  cases m with
  | none =>
      refine iff_of_true (allWithin_of_inStep hrest .absent) ?_
      intro bad next hbad
      cases hbad
  | some bad =>
      cases rest with
      | nil =>
          refine iff_of_true (fun i x hx => absurd hx (by simp)) ?_
          intro bad next _ hnext
          exact absurd hnext (by simp)
      | cons y tail =>
          cases y with
          | none =>
              rw [relay, allWithin_cons_none]
              refine iff_of_true (allWithin_of_inStep hrest.tail .absent) ?_
              intro bad next _ hnext
              exact absurd hnext (by simp)
          | some next =>
              rw [allWithin_iff_harmless hstep bad next (hrest.head next rfl) tail hrest.tail]
              constructor
              · intro h bad' next' hbad hnext
                rw [List.getElem?_cons_zero, Option.some.injEq] at hnext
                rw [← Option.some.inj hbad, ← Option.some.inj hnext]
                exact h
              · intro h
                exact h bad next rfl rfl

theorem allModerate_of_getElem? {xs : List (Option Single)}
    (h : ∀ (i : Nat) (x : Single), xs[i]? = some (some x) → Moderate x) : AllModerate xs := by
  intro x hx
  obtain ⟨i, hi⟩ := List.mem_iff_getElem?.mp hx
  exact h i x hi

/--
**When a bad reading damages only itself.**

Let every reading of a channel be moderate, except that the one at `k` may be anything. The good
readings all decode to values close to them if and only if the bad one is followed by a gap (or
by nothing), or it is harmless to the reading after it and to those up to the next gap.
-/
theorem fault_confined_iff (c : Codec) (samples : List Sample) (channel : Channel) (k : Nat)
    (hgood : ∀ (i : Nat) (x : Single), i ≠ k → samples[i]?.bind channel.ofSample = some x →
      x.isFinite = true ∧ |x.value| ≤ 4096) :
    (∀ (i : Nat) (x : Single), i ≠ k → samples[i]?.bind channel.ofSample = some x →
      ∃ z, (c.decode (c.encode samples).1 (c.encode samples).2)[i]?.bind channel.ofSample =
          some z ∧
        z.isFinite = true ∧
        |z.value - x.value| ≤ 1 / (2 * c.precision.value) + 1 / 2 ^ 11) ↔
    ∀ bad next, samples[k]?.bind channel.ofSample = some bad →
      samples[k + 1]?.bind channel.ofSample = some next →
      c.Harmless ((samples.take k).getLast?.bind channel.ofSample) bad next
        ((samples.drop (k + 2)).map channel.ofSample) := by
  simp only [Channel.bind_ofSample_eq_some_iff] at hgood ⊢
  have hdecoded : (c.decode (c.encode samples).1 (c.encode samples).2).map channel.ofSample =
      c.relay none none (samples.map channel.ofSample) := c.decodedReadings_eq channel samples
  rw [hdecoded]
  rcases Nat.lt_or_ge k samples.length with hk | hk
  · have hsplit := channel.map_ofSample_eq_append hk
    have hlength : ((samples.take k).map channel.ofSample).length = k := by
      rw [List.length_map, List.length_take, Nat.min_eq_left hk.le]
    have hbefore : AllModerate ((samples.take k).map channel.ofSample) := by
      refine allModerate_of_getElem? fun i x hx => ?_
      have hlt := (List.getElem?_eq_some_iff.mp hx).1
      refine hgood i x (by omega) ?_
      rw [hsplit, List.getElem?_append_left hlt]
      exact hx
    have hafter : AllModerate ((samples.drop (k + 1)).map channel.ofSample) := by
      refine allModerate_of_getElem? fun i x hx => hgood (k + (i + 1)) x (by omega) ?_
      rw [hsplit, List.getElem?_append_right (by omega), hlength, Nat.add_sub_cancel_left]
      exact hx
    have hiff := forall_ne_within_iff (c := c) _ (channel.ofSample samples[k]) _ hbefore hafter
    rw [← hsplit, hlength, channel.getLast?_map_ofSample, ← List.map_drop, List.drop_drop] at hiff
    -- the readings at `k` and after it, found in the samples
    have hbad : (samples.map channel.ofSample)[k]? = some (channel.ofSample samples[k]) := by
      rw [List.getElem?_map, List.getElem?_eq_getElem hk, Option.map_some]
    have hnext : (samples.map channel.ofSample)[k + 1]? =
        ((samples.drop (k + 1)).map channel.ofSample)[0]? := by
      rw [List.getElem?_map, List.getElem?_map, List.getElem?_drop, Nat.add_zero]
    rw [hbad, hnext]
    simp only [Option.some.injEq]
    exact hiff
  · -- no reading at `k`, so all are good
    have hnone : (samples.map channel.ofSample)[k]? = none := by
      rw [List.getElem?_eq_none (by rwa [List.length_map])]
    have hall : AllModerate (samples.map channel.ofSample) := by
      refine allModerate_of_getElem? fun i x hx => hgood i x ?_ hx
      rintro rfl
      rw [hnone] at hx
      cases hx
    refine iff_of_true (fun i x _ hx => allWithin_of_inStep hall .absent i x hx) ?_
    intro bad next hbad
    rw [hnone] at hbad
    cases hbad

/-- A sudden jump to 9000 degrees and back, which the step counts survive. -/
theorem fault_confined_jump :
    let samples : List Sample :=
      [{ beanTemp := some 20.34 }, { beanTemp := some 9000 }, { beanTemp := some 20.76 },
        { beanTemp := some 21 }]
    (∀ (i : Nat) (x : Single), i ≠ 1 → samples[i]?.bind Channel.beanTemp.ofSample = some x →
      x.isFinite = true ∧ |x.value| ≤ 4096) ∧
    ∀ (i : Nat) (x : Single), i ≠ 1 → samples[i]?.bind Channel.beanTemp.ofSample = some x →
      ∃ z, (tenths.decode (tenths.encode samples).1 (tenths.encode samples).2)[i]?.bind
          Channel.beanTemp.ofSample = some z ∧
        z.isFinite = true ∧
        |z.value - x.value| ≤ 1 / (2 * tenths.precision.value) + 1 / 2 ^ 11 := by
  intro samples
  have hgood : ∀ (i : Nat) (x : Single), i ≠ 1 →
      samples[i]?.bind Channel.beanTemp.ofSample = some x →
        x.isFinite = true ∧ |x.value| ≤ 4096 := by
    refine Channel.beanTemp.forall_ne_of_all samples 1 ?_
    decide +kernel
  refine ⟨hgood, (fault_confined_iff tenths samples .beanTemp 1 hgood).mpr ?_⟩
  intro bad next hbad hnext
  have hbad' : (9000 : Single) = bad := Option.some.inj hbad
  have hnext' : (20.76 : Single) = next := Option.some.inj hnext
  subst hbad' hnext'
  refine ⟨20.8, by decide +kernel, by decide +kernel, ?_⟩
  have hlast : |tenths.gridPoint (tenths.level (21 : Single).value +
      (tenths.level (20.8 : Single).value - tenths.level (20.76 : Single).value)) -
        (21 : Single).value| ≤ 1 / (2 * tenths.perUnit) + 1 / 2 ^ 11 := by
    decide +kernel
  intro w hw
  have hw' : w = 21 := by simpa [samples, Channel.ofSample] using hw
  rw [hw']
  exact hlast

/-- After a NaN, and after a jump to 1e8 and back, the good reading that follows is lost. -/
theorem bad_reading_damages_later_ones :
    let samples : List Sample :=
      [{ timestamp := 0, beanTemp := some 20, envTemp := some 20 },
        { timestamp := 1, beanTemp := some .nan, envTemp := some 1e8 },
        { timestamp := 2, beanTemp := some 20, envTemp := some 20 },
        { timestamp := 3, beanTemp := some 20, envTemp := some 20.5 }]
    ∀ channel ∈ [Channel.beanTemp, Channel.envTemp],
      (∀ (i : Nat) (x : Single), i ≠ 1 → samples[i]?.bind channel.ofSample = some x →
        x.isFinite = true ∧ |x.value| ≤ 4096) ∧
      ¬ ∀ (i : Nat) (x : Single), i ≠ 1 → samples[i]?.bind channel.ofSample = some x →
        ∃ z, (tenths.decode (tenths.encode samples).1 (tenths.encode samples).2)[i]?.bind
            channel.ofSample = some z ∧
          z.isFinite = true ∧
          |z.value - x.value| ≤ 1 / (2 * tenths.precision.value) + 1 / 2 ^ 11 := by
  intro samples channel hchannel
  constructor
  · have hgood : ∀ channel ∈ [Channel.beanTemp, Channel.envTemp], ∀ i < samples.length, i ≠ 1 →
        (samples[i]?.bind channel.ofSample).all fun x => x.isFinite = true ∧ |x.value| ≤ 4096 := by
      decide +kernel
    exact channel.forall_ne_of_all samples 1 (hgood channel hchannel)
  · intro hall
    have hlater : ∀ channel ∈ [Channel.beanTemp, Channel.envTemp],
        (samples[2]?.bind channel.ofSample = some 20 ∧
          ((tenths.decode (tenths.encode samples).1 (tenths.encode samples).2)[2]?.bind
            channel.ofSample).all fun z => ¬ tenths.Within 20 z) := by
      decide +kernel
    obtain ⟨hsource, hdecoded⟩ := hlater channel hchannel
    obtain ⟨z, hz, hwithin⟩ := hall 2 20 (by decide) hsource
    rw [hz] at hdecoded
    exact of_decide_eq_true hdecoded hwithin

end RoastTelemetry.Codec
