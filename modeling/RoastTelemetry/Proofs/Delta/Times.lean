import RoastTelemetry.Proofs.Binary.Ordered
import RoastTelemetry.Proofs.Delta.Offsets
import RoastTelemetry.Proofs.Delta.Resume

/-!
# Times in order, and how far off they are

From a time to the offset that is stored and to the time that is restored, each operation rounds a
monotone one with a fixed second operand. So times in order have offsets in order and are restored
in order, however large they are: a difference or a product that does not fit becomes an infinity,
which the operations after it leave as it is.

Where nothing overflows, the restored time is off by half a step and by the errors of four
roundings. None of them knows where in a chain the time stands.
-/

namespace RoastTelemetry.Codec

variable {c : Codec}

/-! ## Order -/

theorem le_roundToStep {x y : Double} (h : x ≤ y) : c.roundToStep x ≤ c.roundToStep y := by
  have hp := c.perUnit_pos
  have hscaled := (Binary.roundsMonotone_mul denotes_perUnit hp).le h
  have hcounted := Binary.roundsMonotone_round.le hscaled
  exact (Binary.roundsMonotone_div denotes_perUnit hp).le hcounted

/-- Times in order have offsets in order. -/
theorem le_offset {base t u : Double} (hbase : base.isFinite = true) (h : t ≤ u) :
    c.roundToStep (t - base) ≤ c.roundToStep (u - base) :=
  le_roundToStep ((Binary.roundsMonotone_sub (Binary.denotes_value hbase)).le h)

/-- Offsets in order are restored in order. -/
theorem le_restored {base x y : Double} (hbase : base.isFinite = true) (h : x ≤ y) :
    base + x ≤ base + y :=
  (Binary.roundsMonotone_add_left (Binary.denotes_value hbase)).le h

/-! ## Accuracy -/

/--
**A restored time is off by half a step and less than a sixty-thousandth of a second.**

The difference, the count in steps, the quotient and the sum are rounded, each to double precision
and none of them beyond `2 ^ 35` seconds.
-/
theorem abs_restoredTime_sub_source_le {b t : ℚ} (hb : |b| ≤ 2 ^ 32) (ht : |t| ≤ 2 ^ 32) :
    |c.restoredTime b t - t| ≤ 1 / (2 * c.perUnit) + 1 / 2 ^ 16 := by
  have hsub := abs_sub_le_two_pow hb ht
  have hdifference : |Format.double.nearest (t - b) - (t - b)| ≤ 2 ^ 33 / 2 ^ 54 :=
    double_nearest_error_le hsub
  have hcount : |c.distance b t / c.perUnit - Format.double.nearest (t - b)| ≤
      1 / (2 * c.perUnit) + 2 ^ 33 / 2 ^ 53 := by
    refine (c.abs_level_div_sub_le _).trans ?_
    gcongr
    exact abs_double_nearest_le hsub
  have hquotient : |c.offset b t - c.distance b t / c.perUnit| ≤ 2 ^ 34 / 2 ^ 54 :=
    double_nearest_error_le (abs_distance_div_le hb ht)
  have hsum : |c.restoredTime b t - (b + c.offset b t)| ≤ 2 ^ 35 / 2 ^ 54 :=
    double_nearest_error_le (abs_add_offset_le hb ht)
  have hsplit : c.restoredTime b t - t =
      (c.restoredTime b t - (b + c.offset b t)) + (c.offset b t - c.distance b t / c.perUnit) +
        (c.distance b t / c.perUnit - Format.double.nearest (t - b)) +
        (Format.double.nearest (t - b) - (t - b)) := by ring
  have htri₁ := abs_add_le (c.restoredTime b t - (b + c.offset b t) +
    (c.offset b t - c.distance b t / c.perUnit) +
    (c.distance b t / c.perUnit - Format.double.nearest (t - b)))
    (Format.double.nearest (t - b) - (t - b))
  have htri₂ := abs_add_le (c.restoredTime b t - (b + c.offset b t) +
    (c.offset b t - c.distance b t / c.perUnit))
    (c.distance b t / c.perUnit - Format.double.nearest (t - b))
  have htri₃ := abs_add_le (c.restoredTime b t - (b + c.offset b t))
    (c.offset b t - c.distance b t / c.perUnit)
  rw [hsplit]
  norm_num at hdifference hcount hquotient hsum ⊢
  linarith

/-! ## A batch -/

/-- A restored time within half a step and `1 / 2 ^ 16` of a second of its source. -/
def TimeWithin (c : Codec) (t u : Double) : Prop :=
  u.isFinite = true ∧ |u.value - t.value| ≤ 1 / (2 * c.precision.value) + 1 / 2 ^ 16

/-- The base time of a batch is the one of its state or the time of a sample. -/
theorem base_encodeAfter_of {P : Double → Prop} {samples : List Sample} {state : ChainState}
    (hstate : P state.base) (hsamples : ∀ s ∈ samples, P s.timestamp) (hne : samples ≠ []) :
    P (c.encodeAfter samples state).2.base := by
  obtain ⟨first, rest, rfl⟩ := List.exists_cons_of_ne_nil hne
  rw [base_encodeAfter]
  unfold ChainState.baseFor
  cases state.last with
  | none => exact hsamples first List.mem_cons_self
  | some last => exact hstate

/-- The offsets of a batch, which may be empty. -/
theorem map_offset_encodeAfter_eq (samples : List Sample) (state : ChainState) :
    (c.encodeAfter samples state).1.map Packed.offset =
      (samples.map Sample.timestamp).map
        fun t => c.roundToStep (t - (c.encodeAfter samples state).2.base) := by
  rw [List.map_map]
  cases samples with
  | nil =>
      rw [encodeAfter_nil]
      rfl
  | cons first rest =>
      rw [map_offset_encodeAfter, base_encodeAfter]
      rfl

/-- The times of a batch that is restored from its base time. -/
theorem map_timestamp_restored (samples : List Sample) (state : ChainState)
    (last : Option Sample) :
    let encoded := c.encodeAfter samples state
    (c.decodeAfter encoded.1 { base := encoded.2.base, last }).1.map Sample.timestamp =
      (encoded.1.map Packed.offset).map fun x => encoded.2.base + x := by
  intro encoded
  rw [map_timestamp_decodeAfter, List.map_map]
  rfl

theorem ascending_encodeAfter {samples : List Sample} (state : ChainState)
    (hsorted : Binary.Ascending (samples.map Sample.timestamp))
    (hbase : samples ≠ [] → (c.encodeAfter samples state).2.base.isFinite = true)
    (last : Option Sample) :
    let encoded := c.encodeAfter samples state
    Binary.Ascending (encoded.1.map Packed.offset) ∧
      Binary.Ascending ((c.decodeAfter encoded.1 { base := encoded.2.base, last }).1.map
        Sample.timestamp) := by
  intro encoded
  rw [map_timestamp_restored, map_offset_encodeAfter_eq]
  rcases eq_or_ne samples [] with rfl | hne
  · exact ⟨hsorted, hsorted⟩
  · have hoffsets := hsorted.map (le_offset (c := c) (hbase hne))
    exact ⟨hoffsets, hoffsets.map (le_restored (hbase hne))⟩

theorem timeWithin_restored {base t : Double} (hbase : OrdinaryTime base) (ht : OrdinaryTime t) :
    c.TimeWithin t (base + c.roundToStep (t - base)) := by
  have h := denotes_restoredTime (c := c) hbase ht
  refine ⟨h.isFinite_eq, ?_⟩
  rw [h.value_eq]
  exact abs_restoredTime_sub_source_le hbase.2 ht.2

theorem timeWithin_decodeAfter {samples : List Sample} (state : ChainState)
    (htimes : ∀ s ∈ samples, OrdinaryTime s.timestamp)
    (hbase : samples ≠ [] → OrdinaryTime (c.encodeAfter samples state).2.base)
    (last : Option Sample) :
    let encoded := c.encodeAfter samples state
    List.Forall₂ c.TimeWithin (samples.map Sample.timestamp)
      ((c.decodeAfter encoded.1 { base := encoded.2.base, last }).1.map Sample.timestamp) := by
  intro encoded
  rw [map_timestamp_restored, map_offset_encodeAfter_eq, List.map_map, List.map_map,
    List.forall₂_map_left_iff, List.forall₂_map_right_iff, List.forall₂_same]
  intro s hs
  exact timeWithin_restored (hbase (List.ne_nil_of_mem hs)) (htimes s hs)

/--
**Time order and time accuracy are kept.**

Let finite times be in order. Packed as the start of a chain or from any state with a finite base
time, they have offsets in order, and unpacked from the base time of the chain, with whatever
reference, they are in order again; none of these is a NaN, although infinities may occur. If the
times and the base are at most `2 ^ 32` in size, then each comes out within half a step and
`1 / 2 ^ 16` of a second, wherever it stands.
-/
theorem times_kept (c : Codec) (samples : List Sample) (state : ChainState)
    (hbase : state.base.isFinite = true)
    (hfinite : ∀ s ∈ samples, s.timestamp.isFinite = true)
    (hsorted : samples.Pairwise fun s t => s.timestamp ≤ t.timestamp) (last : Option Sample) :
    let fresh := c.encode samples
    let resumed := c.encodeAfter samples state
    let times := samples.map Sample.timestamp
    let freshTimes := (c.decode fresh.1 fresh.2).map Sample.timestamp
    let resumedTimes :=
      (c.decodeAfter resumed.1 { base := resumed.2.base, last }).1.map Sample.timestamp
    Binary.Ascending (fresh.1.map Packed.offset) ∧ Binary.Ascending freshTimes ∧
      Binary.Ascending (resumed.1.map Packed.offset) ∧ Binary.Ascending resumedTimes ∧
      ((∀ t ∈ times, |t.value| ≤ 2 ^ 32) →
        List.Forall₂ c.TimeWithin times freshTimes ∧
          (|state.base.value| ≤ 2 ^ 32 → List.Forall₂ c.TimeWithin times resumedTimes)) := by
  intro fresh resumed times freshTimes resumedTimes
  have hascending : Binary.Ascending times := by
    refine ⟨List.pairwise_map.mpr hsorted, ?_⟩
    intro t ht
    obtain ⟨s, hs, rfl⟩ := List.mem_map.mp ht
    exact Binary.isNaN_of_isFinite (hfinite s hs)
  -- a fresh chain is one resumed from the neutral state, whose base time does not count
  have hneutral : OrdinaryTime 0 := by
    refine ⟨Binary.denotes_zero.isFinite_eq, ?_⟩
    rw [Binary.denotes_zero.value_eq, abs_zero]
    norm_num
  have hfresh := ascending_encodeAfter (c := c) {} hascending
    (base_encodeAfter_of (P := fun t => t.isFinite = true) hneutral.1 hfinite) none
  have hresumed := ascending_encodeAfter (c := c) state hascending
    (base_encodeAfter_of (P := fun t => t.isFinite = true) hbase hfinite) last
  refine ⟨hfresh.1, hfresh.2, hresumed.1, hresumed.2, ?_⟩
  intro hsize
  have htimes : ∀ s ∈ samples, OrdinaryTime s.timestamp :=
    fun s hs => ⟨hfinite s hs, hsize _ (List.mem_map_of_mem hs)⟩
  refine ⟨timeWithin_decodeAfter {} htimes (base_encodeAfter_of hneutral htimes) none,
    ?_⟩
  intro hsmall
  exact timeWithin_decodeAfter state htimes (base_encodeAfter_of ⟨hbase, hsmall⟩ htimes) last

/-- Two samples at one time, and a chain that began a second before them. -/
theorem times_kept_tenths :
    let samples : List Sample :=
      [{ timestamp := 1001.09 }, { timestamp := 1001.09 }, { timestamp := 1002.11 }]
    let state : ChainState := { base := 1000.04, last := some { timestamp := 1000.04 } }
    state.base.isFinite = true ∧ (∀ s ∈ samples, s.timestamp.isFinite = true) ∧
    (samples.Pairwise fun s t => s.timestamp ≤ t.timestamp) ∧
    let resumed := tenths.encodeAfter samples state
    let times := samples.map Sample.timestamp
    let resumedTimes :=
      (tenths.decodeAfter resumed.1 { base := resumed.2.base }).1.map Sample.timestamp
    Binary.Ascending (resumed.1.map Packed.offset) ∧ Binary.Ascending resumedTimes ∧
      List.Forall₂ tenths.TimeWithin times resumedTimes := by
  intro samples state
  have hbase : state.base.isFinite = true := by decide +kernel
  have hfinite : ∀ s ∈ samples, s.timestamp.isFinite = true := by decide +kernel
  have hsorted : samples.Pairwise fun s t => s.timestamp ≤ t.timestamp := by decide +kernel
  obtain ⟨-, -, hoffsets, htimes, haccurate⟩ :=
    times_kept tenths samples state hbase hfinite hsorted none
  have hsmall : |state.base.value| ≤ 2 ^ 32 := by decide +kernel
  have hsize : ∀ t ∈ samples.map Sample.timestamp, |t.value| ≤ 2 ^ 32 := by decide +kernel
  exact ⟨hbase, hfinite, hsorted, hoffsets, htimes, (haccurate hsize).2 hsmall⟩

-- A difference that does not fit becomes an infinite offset, and so an infinite time.
example :
    let base : Double := Binary.neg 1.7e308
    let offset := tenths.roundToStep (1.7e308 - base)
    offset = .infinity false ∧ base + offset = .infinity false := by
  decide +kernel

end RoastTelemetry.Codec
