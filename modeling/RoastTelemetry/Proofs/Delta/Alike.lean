import RoastTelemetry.Proofs.Delta.Drift
import Mathlib.Data.List.Forall2

/-!
# What the coder does not tell apart

Two histories that differ in the sign of zeros only are the same to a reader, and the coder keeps
it so: from samples alike it makes packed samples alike, and back.

It tells apart even less. Of a reading, and of the reading before it, it looks at the number of
steps alone, so references may be as far apart as readings of one level are. This is why a decoded
sample serves as a reference in the place of its source.
-/

namespace RoastTelemetry

/-- Equal samples, but for the sign of zeros. -/
structure Sample.Alike (s t : Sample) : Prop where
  timestamp : s.timestamp.Alike t.timestamp
  reading (channel : Channel) :
    Option.Rel Binary.Alike (channel.ofSample s) (channel.ofSample t)
  rateOfRise : Option.Rel Binary.Alike s.rateOfRise t.rateOfRise
  copied : s.copied = t.copied

/-- Equal packed samples, but for the sign of zeros. -/
structure Packed.Alike (p q : Packed) : Prop where
  offset : p.offset.Alike q.offset
  stored (channel : Channel) :
    Option.Rel Binary.Alike (channel.ofPacked p) (channel.ofPacked q)
  rateOfRise : Option.Rel Binary.Alike p.rateOfRise q.rateOfRise
  copied : p.copied = q.copied

/-- Equal states of a chain, but for the sign of zeros. -/
structure ChainState.Alike (state state' : ChainState) : Prop where
  base : state.base.Alike state'.base
  last : Option.Rel Sample.Alike state.last state'.last

/-! ## Relations on what may be absent -/

theorem optionRel_refl {α : Type} {R : α → α → Prop} (hR : ∀ a, R a a) (x : Option α) :
    Option.Rel R x x := by
  cases x with
  | none => exact .none
  | some a => exact .some (hR a)

theorem optionRel_trans {α : Type} {R : α → α → Prop} (hR : ∀ a b d, R a b → R b d → R a d)
    {x y z : Option α} (h : Option.Rel R x y) (h' : Option.Rel R y z) : Option.Rel R x z := by
  cases h with
  | none => exact h'
  | some h =>
      cases h' with
      | some h' => exact .some (hR _ _ _ h h')

theorem optionRel_mono {α : Type} {R Q : α → α → Prop} (hRQ : ∀ a b, R a b → Q a b)
    {x y : Option α} (h : Option.Rel R x y) : Option.Rel Q x y := by
  cases h with
  | none => exact .none
  | some h => exact .some (hRQ _ _ h)

theorem optionRel_map {α β : Type} {R : α → α → Prop} {Q : β → β → Prop} {f : α → β}
    (hf : ∀ a b, R a b → Q (f a) (f b)) {x y : Option α} (h : Option.Rel R x y) :
    Option.Rel Q (x.map f) (y.map f) := by
  cases h with
  | none => exact .none
  | some h => exact .some (hf _ _ h)

theorem optionRel_bind {α β : Type} {R : α → α → Prop} {Q : β → β → Prop} {f : α → Option β}
    (hf : ∀ a b, R a b → Option.Rel Q (f a) (f b)) {x y : Option α} (h : Option.Rel R x y) :
    Option.Rel Q (x.bind f) (y.bind f) := by
  cases h with
  | none => exact .none
  | some h => exact hf _ _ h

/-! ## Samples alike -/

@[refl]
theorem Sample.Alike.refl (s : Sample) : s.Alike s where
  timestamp := .refl _
  reading _ := optionRel_refl .refl _
  rateOfRise := optionRel_refl .refl _
  copied := rfl

theorem Sample.Alike.trans {s t u : Sample} (h : s.Alike t) (h' : t.Alike u) : s.Alike u where
  timestamp := h.timestamp.trans h'.timestamp
  reading channel := optionRel_trans (fun _ _ _ => .trans) (h.reading channel) (h'.reading channel)
  rateOfRise := optionRel_trans (fun _ _ _ => .trans) h.rateOfRise h'.rateOfRise
  copied := h.copied.trans h'.copied

@[refl]
theorem Packed.Alike.refl (p : Packed) : p.Alike p where
  offset := .refl _
  stored _ := optionRel_refl .refl _
  rateOfRise := optionRel_refl .refl _
  copied := rfl

theorem Packed.Alike.trans {p q r : Packed} (h : p.Alike q) (h' : q.Alike r) : p.Alike r where
  offset := h.offset.trans h'.offset
  stored channel := optionRel_trans (fun _ _ _ => .trans) (h.stored channel) (h'.stored channel)
  rateOfRise := optionRel_trans (fun _ _ _ => .trans) h.rateOfRise h'.rateOfRise
  copied := h.copied.trans h'.copied

theorem forall₂_trans {α : Type} {R : α → α → Prop} (hR : ∀ a b d, R a b → R b d → R a d)
    {xs ys : List α} (h : List.Forall₂ R xs ys) :
    ∀ {zs : List α}, List.Forall₂ R ys zs → List.Forall₂ R xs zs := by
  induction h with
  | nil => intro zs h'; exact h'
  | cons hhead _ ih =>
      intro zs h'
      cases h' with
      | cons hhead' htail' => exact .cons (hR _ _ _ hhead hhead') (ih htail')

namespace Codec

variable {c : Codec}

/-! ## Counting in steps -/

theorem alike_steps {x y : Double} (h : x.Alike y) : (c.steps x).Alike (c.steps y) := by
  refine h.map c.steps fun z hz => ?_
  have hsteps := denotes_steps (c := c) hz (by rw [abs_zero]; positivity)
  rwa [level_zero, Int.cast_zero] at hsteps

theorem alike_div_precision {q q' : Double} (h : q.Alike q') :
    (q / c.precision).Alike (q' / c.precision) := by
  refine h.map (fun z => z / c.precision) fun z hz => ?_
  have hdiv := hz.div c.denotes_perUnit c.perUnit_pos.ne'
  rw [zero_div] at hdiv
  exact hdiv.denotes_exact hz.representable hz.abs_lt_limit

/-- Readings that come to the same number of steps. -/
def SameCount (c : Codec) (x y : Single) : Prop := (c.steps x.widen).Alike (c.steps y.widen)

theorem SameCount.of_alike {x y : Single} (h : x.Alike y) : c.SameCount x y :=
  alike_steps (h.convert .double)

theorem SameCount.of_level {x y : Single} (hx : x.isFinite = true) (hy : y.isFinite = true)
    (hlevel : c.level y.value = c.level x.value) : c.SameCount x y := by
  have hcount := c.denotes_steps_widen (Binary.denotes_value hy)
  rw [hlevel] at hcount
  exact (c.denotes_steps_widen (Binary.denotes_value hx)).alike hcount

theorem SameCount.alike_rounded {x y : Single} (h : c.SameCount x y) :
    (c.roundToStep x.widen).narrow.Alike (c.roundToStep y.widen).narrow :=
  (alike_div_precision h).convert .single

theorem InStep.sameCount {before after : Option Single} (h : c.InStep before after) :
    Option.Rel c.SameCount before after := by
  cases h with
  | absent => exact .none
  | present hx hz hlevel => exact .some (.of_level hx.1 hz hlevel)

/-! ## One reading -/

theorem alike_difference {before before' x x' : Option Single}
    (hbefore : Option.Rel c.SameCount before before') (hx : Option.Rel c.SameCount x x') :
    Option.Rel Binary.Alike (c.difference before x) (c.difference before' x') := by
  cases hx with
  | none => exact .none
  | some hx =>
      refine .some ?_
      cases hbefore with
      | none => exact hx.alike_rounded
      | some hbefore => exact (alike_div_precision (hx.sub hbefore)).convert .single

theorem alike_restore {before before' stored stored' : Option Single}
    (hbefore : Option.Rel c.SameCount before before')
    (hstored : Option.Rel Binary.Alike stored stored') :
    Option.Rel Binary.Alike (c.restore before stored) (c.restore before' stored') := by
  cases hstored with
  | none => exact .none
  | some hstored =>
      refine .some ?_
      cases hbefore with
      | none => exact (hstored.convert .double).convert .single
      | some hbefore =>
          exact (alike_div_precision (hbefore.add (SameCount.of_alike hstored))).convert .single

/-! ## One sample -/

/-- Samples before, absent together, from which no difference and no sum comes out otherwise. -/
def SameReference (c : Codec) (before before' : Option Sample) : Prop :=
  ∀ channel : Channel,
    Option.Rel c.SameCount (before.bind channel.ofSample) (before'.bind channel.ofSample)

/-- Samples that are packed alike, each counted from a base time of its own. -/
structure PackedAlike (c : Codec) (base base' : Double) (s t : Sample) : Prop where
  time : (c.steps (s.timestamp - base)).Alike (c.steps (t.timestamp - base'))
  reading (channel : Channel) :
    Option.Rel c.SameCount (channel.ofSample s) (channel.ofSample t)
  rateOfRise : Option.Rel c.SameCount s.rateOfRise t.rateOfRise
  copied : s.copied = t.copied

theorem PackedAlike.of_alike {base base' : Double} (hbase : base.Alike base') {s t : Sample}
    (h : s.Alike t) : c.PackedAlike base base' s t where
  time := alike_steps (h.timestamp.sub hbase)
  reading channel := optionRel_mono (fun _ _ => .of_alike) (h.reading channel)
  rateOfRise := optionRel_mono (fun _ _ => .of_alike) h.rateOfRise
  copied := h.copied

theorem SameReference.of_alike {before before' : Option Sample}
    (h : Option.Rel Sample.Alike before before') : c.SameReference before before' := by
  intro channel
  refine optionRel_bind (fun s t hst => ?_) h
  exact optionRel_mono (fun _ _ => .of_alike) (hst.reading channel)

theorem SameReference.of_packedAlike {base base' : Double} {s t : Sample}
    (h : c.PackedAlike base base' s t) : c.SameReference (some s) (some t) :=
  fun channel => h.reading channel

theorem alike_pack {base base' : Double} {before before' : Option Sample}
    (hbefore : c.SameReference before before') {s t : Sample}
    (h : c.PackedAlike base base' s t) :
    (c.pack base before s).Alike (c.pack base' before' t) where
  offset := alike_div_precision h.time
  stored channel := by
    rw [ofPacked_pack, ofPacked_pack]
    exact alike_difference (hbefore channel) (h.reading channel)
  rateOfRise := by
    simp only [pack]
    exact optionRel_map (fun _ _ hcount => hcount.alike_rounded) h.rateOfRise
  copied := h.copied

theorem alike_unpack {base base' : Double} (hbase : base.Alike base')
    {before before' : Option Sample} (hbefore : c.SameReference before before') {p q : Packed}
    (h : p.Alike q) : (c.unpack base before p).Alike (c.unpack base' before' q) where
  timestamp := hbase.add h.offset
  reading channel := by
    rw [ofSample_unpack, ofSample_unpack]
    exact alike_restore (hbefore channel) (h.stored channel)
  rateOfRise := h.rateOfRise
  copied := h.copied

/-! ## A batch -/

theorem alike_packEach {base base' : Double} {xs ys : List Sample}
    (h : List.Forall₂ (c.PackedAlike base base') xs ys) :
    ∀ {before before'}, c.SameReference before before' →
      List.Forall₂ Packed.Alike (c.packEach base before xs) (c.packEach base' before' ys) := by
  induction h with
  | nil => intro before before' _; exact .nil
  | cons hhead _ ih =>
      intro before before' hbefore
      exact .cons (alike_pack hbefore hhead) (ih (.of_packedAlike hhead))

theorem alike_unpackEach {base base' : Double} (hbase : base.Alike base') {ps qs : List Packed}
    (h : List.Forall₂ Packed.Alike ps qs) :
    ∀ {before before'}, c.SameReference before before' →
      List.Forall₂ Sample.Alike (c.unpackEach base before ps)
        (c.unpackEach base' before' qs) := by
  induction h with
  | nil => intro before before' _; exact .nil
  | cons hhead _ ih =>
      intro before before' hbefore
      -- what differs between the references is gone after one sample
      have hsample := alike_unpack hbase hbefore hhead
      exact .cons hsample (ih (.of_alike (.some hsample)))

theorem SameReference.none : c.SameReference none none := fun _ => .none

/-- Histories alike are packed alike, from base times alike. -/
theorem alike_encode {xs ys : List Sample} (h : List.Forall₂ Sample.Alike xs ys) :
    List.Forall₂ Packed.Alike (c.encode xs).1 (c.encode ys).1 ∧
      (c.encode xs).2.base.Alike (c.encode ys).2.base := by
  cases h with
  | nil => exact ⟨.nil, .refl _⟩
  | cons hhead htail =>
      refine ⟨alike_packEach ?_ .none, hhead.timestamp⟩
      exact (List.Forall₂.cons hhead htail).imp fun _ _ => .of_alike hhead.timestamp

theorem alike_decode {ps qs : List Packed} (h : List.Forall₂ Packed.Alike ps qs)
    {state state' : ChainState} (hbase : state.base.Alike state'.base) :
    List.Forall₂ Sample.Alike (c.decode ps state) (c.decode qs state') :=
  alike_unpackEach hbase h .none

end Codec

end RoastTelemetry
