import RoastTelemetry.Proofs.Delta.Offsets
import Mathlib.Logic.Function.Iterate

/-!
# No loss after the first generation

Packing rounds, so the history that comes out is not the one that went in. But it is one that the
coder cannot tell from it: each time is as many steps from the base as its source, and each reading
comes to the same number of steps. So packing it again gives the same batch, unpacking that gives
the same history, and so on for ever.
-/

namespace RoastTelemetry

/-- A time of ordinary size, and moderate readings and rates where there are any. -/
structure Sample.InRange (s : Sample) : Prop where
  time : Codec.OrdinaryTime s.timestamp
  reading : ∀ (channel : Channel) (x : Single), channel.ofSample s = some x → Codec.Moderate x
  rateOfRise : ∀ x, s.rateOfRise = some x → Codec.Moderate x

namespace Codec

variable {c : Codec}

/-- What is left of a history after packing and unpacking it. -/
def recode (c : Codec) (samples : List Sample) : List Sample :=
  c.decode (c.encode samples).1 (c.encode samples).2

/-! ## The first generation -/

/-- A rounded rate comes to the same number of steps. -/
theorem sameCount_rate {x : Option Single} (hx : ∀ a, x = some a → Moderate a) :
    Option.Rel c.SameCount x (x.map fun a => (c.roundToStep a.widen).narrow) := by
  cases x with
  | none => exact .none
  | some a =>
      have ha := hx a rfl
      exact (inStep_of_denotes ha (denotes_roundToStep ha)).sameCount

/-- One sample: what comes out is packed like what went in. -/
theorem packedAlike_unpack_pack {base base' : Double} (hbase : OrdinaryTime base)
    (hbase' : base.Alike base') {s : Sample} (hs : s.InRange) {before after : Option Sample}
    (h : ∀ channel : Channel,
      c.InStep (before.bind channel.ofSample) (after.bind channel.ofSample)) :
    c.PackedAlike base base' s (c.unpack base after (c.pack base before s)) where
  time := (alike_steps_restored hbase hs.time).trans
    (alike_steps (Binary.Alike.sub (.refl _) hbase'))
  reading channel := by
    rw [ofSample_unpack, ofPacked_pack]
    exact (inStep_restore (h channel) (hs.reading channel)).sameCount
  rateOfRise := sameCount_rate hs.rateOfRise
  copied := rfl

theorem packedAlike_unpackEach_packEach {base base' : Double} (hbase : OrdinaryTime base)
    (hbase' : base.Alike base') (samples : List Sample) (hsamples : ∀ s ∈ samples, s.InRange) :
    ∀ {before after : Option Sample},
      (∀ channel : Channel,
        c.InStep (before.bind channel.ofSample) (after.bind channel.ofSample)) →
      List.Forall₂ (c.PackedAlike base base') samples
        (c.unpackEach base after (c.packEach base before samples)) := by
  induction samples with
  | nil => intro before after _; exact .nil
  | cons s rest ih =>
      intro before after h
      have hs := hsamples s List.mem_cons_self
      refine .cons (packedAlike_unpack_pack hbase hbase' hs h) (ih ?_ ?_)
      · exact fun t ht => hsamples t (List.mem_cons_of_mem _ ht)
      · -- the sample and what came of it are the references for the next one
        intro channel
        rw [Option.bind_some, Option.bind_some, ofSample_unpack, ofPacked_pack]
        exact inStep_restore (h channel) (hs.reading channel)

/-- Packed again, a history gives the batch that it was unpacked from. -/
theorem alike_encode_recode {samples : List Sample} (hsamples : ∀ s ∈ samples, s.InRange) :
    List.Forall₂ Packed.Alike (c.encode samples).1 (c.encode (c.recode samples)).1 ∧
      (c.encode samples).2.base.Alike (c.encode (c.recode samples)).2.base := by
  cases samples with
  | nil => exact ⟨.nil, .refl _⟩
  | cons first rest =>
      have hbase := (hsamples first List.mem_cons_self).time
      have hbase' := alike_restored_base (c := c) hbase
      refine ⟨alike_packEach ?_ .none, hbase'⟩
      exact packedAlike_unpackEach_packEach hbase hbase' _ hsamples fun _ => .absent

/-! ## All others -/

theorem alike_recode {xs ys : List Sample} (h : List.Forall₂ Sample.Alike xs ys) :
    List.Forall₂ Sample.Alike (c.recode xs) (c.recode ys) :=
  alike_decode (alike_encode h).1 (alike_encode h).2

theorem alike_iterate_recode {history : List Sample}
    (h : List.Forall₂ Sample.Alike history (c.recode history)) (n : Nat) :
    List.Forall₂ Sample.Alike history (c.recode^[n] history) := by
  induction n with
  | zero => exact List.forall₂_same.mpr fun s _ => .refl s
  | succ n ih =>
      rw [Function.iterate_succ_apply']
      exact forall₂_trans (fun _ _ _ => .trans) h (alike_recode ih)

/--
**No generation loss.**

Let times be of ordinary size and readings and rates moderate, and let `history` be what a packed
batch is unpacked to. However often `history` is packed and unpacked, packing it once more gives
the packed list and the base time of that batch, and unpacking that gives `history`, all but for
the sign of zeros.
-/
theorem recode_loses_nothing (c : Codec) (samples : List Sample)
    (hsamples : ∀ s ∈ samples, s.InRange) (n : Nat) :
    let history := c.decode (c.encode samples).1 (c.encode samples).2
    let again := c.encode (c.recode^[n] history)
    List.Forall₂ Packed.Alike (c.encode samples).1 again.1 ∧
      (c.encode samples).2.base.Alike again.2.base ∧
      List.Forall₂ Sample.Alike history (c.decode again.1 again.2) := by
  intro history again
  obtain ⟨hpacked, hbase⟩ := alike_encode_recode (c := c) hsamples
  have hfixed : List.Forall₂ Sample.Alike history (c.recode history) :=
    alike_decode hpacked hbase
  obtain ⟨hpacked', hbase'⟩ := alike_encode (c := c) (alike_iterate_recode hfixed n)
  refine ⟨forall₂_trans (fun _ _ _ => .trans) hpacked hpacked', hbase.trans hbase', ?_⟩
  exact forall₂_trans (fun _ _ _ => .trans) hfixed (alike_recode (alike_iterate_recode hfixed n))

/-- Three samples with a gap, and two generations more. -/
theorem recode_loses_nothing_tenths :
    let samples : List Sample :=
      [{ timestamp := 1000.04, beanTemp := some 20.34, rateOfRise := some 9.87 },
        { timestamp := 1001.09, envTemp := some (-3.76), rateOfRise := some (-3.44) },
        { timestamp := 1002.11, beanTemp := some 20.76, envTemp := some (-3.74) }]
    (∀ s ∈ samples, s.InRange) ∧
    let history := tenths.decode (tenths.encode samples).1 (tenths.encode samples).2
    let again := tenths.encode (tenths.recode^[2] history)
    List.Forall₂ Packed.Alike (tenths.encode samples).1 again.1 ∧
      (tenths.encode samples).2.base.Alike again.2.base ∧
      List.Forall₂ Sample.Alike history (tenths.decode again.1 again.2) := by
  intro samples
  have hsamples : ∀ s ∈ samples, s.InRange := by
    have htimes : ∀ t ∈ [(1000.04 : Double), 1001.09, 1002.11],
        t.isFinite = true ∧ |t.value| ≤ 2 ^ 32 := by decide +kernel
    have hreadings : ∀ x ∈ [(20.34 : Single), -3.76, 20.76, -3.74, 9.87, -3.44],
        x.isFinite = true ∧ |x.value| ≤ 4096 := by decide +kernel
    intro s hs
    simp only [samples, List.mem_cons, List.not_mem_nil, or_false] at hs
    rcases hs with rfl | rfl | rfl
    all_goals
      refine ⟨htimes _ (by simp), ?_, ?_⟩
      · intro channel x hx
        refine hreadings x ?_
        cases channel <;> simp_all [Channel.ofSample]
      · intro x hx
        refine hreadings x ?_
        simp_all
  exact ⟨hsamples, recode_loses_nothing tenths samples hsamples 2⟩

end Codec

end RoastTelemetry
