import RoastTelemetry.Delta.Codec

/-!
# Cutting a history into batches

A history is sent batch by batch, and nothing about the cuts may show in the result. The walk over
a list of samples carries one thing from a sample to the next, namely the sample itself, and the
chain state carries that very thing from a batch to the next. So walking over `A ++ B` is walking
over `A` and then, from where that ended, over `B`.

What needs care is the edge: a batch without samples, and a state without a last sample, from
which encoding starts afresh and takes its base time from the first sample it meets.
-/

namespace RoastTelemetry

/-- The base time of a batch whose first sample is `first`: a chain yet to be started takes it
from there. -/
def ChainState.baseFor (state : ChainState) (first : Sample) : Double :=
  match state.last with
  | none => first.timestamp
  | some _ => state.base

namespace Codec

variable (c : Codec)

/-- Packs batch after batch, each from the state that the one before left behind. -/
def encodeBatches : List (List Sample) → ChainState → List (List Packed) × ChainState
  | [], state => ([], state)
  | samples :: rest, state =>
    let (batch, state) := c.encodeAfter samples state
    let (batches, state) := encodeBatches rest state
    (batch :: batches, state)

/-- Unpacks batch after batch, each from the state that the one before left behind. -/
def decodeBatches : List (List Packed) → ChainState → List (List Sample) × ChainState
  | [], state => ([], state)
  | batch :: rest, state =>
    let (samples, state) := c.decodeAfter batch state
    let (history, state) := decodeBatches rest state
    (samples :: history, state)

/-! ## The walks -/

/-- The last of a non-empty list does not depend on what came before. -/
theorem getLast?_cons_or {α : Type} (x : α) (xs : List α) (before : Option α) :
    (x :: xs).getLast?.or before = xs.getLast?.or (some x) := by
  cases xs with
  | nil => rfl
  | cons y ys => rw [List.getLast?_cons_cons, List.getLast?_cons]; rfl

theorem packEach_append (base : Double) (A B : List Sample) :
    ∀ before, c.packEach base before (A ++ B) =
      c.packEach base before A ++ c.packEach base (A.getLast?.or before) B := by
  induction A with
  | nil => intro before; rfl
  | cons s rest ih =>
      intro before
      rw [List.cons_append, packEach, packEach, ih, getLast?_cons_or]
      rfl

theorem unpackEach_append (base : Double) (a b : List Packed) :
    ∀ before, c.unpackEach base before (a ++ b) =
      c.unpackEach base before a ++
        c.unpackEach base ((c.unpackEach base before a).getLast?.or before) b := by
  induction a with
  | nil => intro before; rfl
  | cons p rest ih =>
      intro before
      rw [List.cons_append, unpackEach, unpackEach, ih, getLast?_cons_or]
      rfl

/-! ## One batch after another -/

/-- A batch with samples is one walk, from the base time and the last sample of its state. -/
theorem encodeAfter_cons (first : Sample) (rest : List Sample) (state : ChainState) :
    c.encodeAfter (first :: rest) state =
      c.encodeFrom (state.baseFor first) state.last (first :: rest) := by
  unfold encodeAfter ChainState.baseFor
  cases state.last with
  | none => rfl
  | some last => rfl

/-- A batch without samples leaves a started chain as it is, and any other neutral. -/
theorem encodeAfter_nil (state : ChainState) :
    c.encodeAfter [] state = ([], if state.last.isSome then state else {}) := by
  unfold encodeAfter
  cases state.last with
  | none => rfl
  | some last => rfl

/-- Before the first sample the base time of the state does not count. -/
theorem encodeAfter_of_last_eq_none {state : ChainState} (h : state.last = none)
    (samples : List Sample) : c.encodeAfter samples state = c.encode samples := by
  unfold encodeAfter
  rw [h]

theorem encodeAfter_append (A B : List Sample) (state : ChainState) :
    c.encodeAfter (A ++ B) state =
      ((c.encodeAfter A state).1 ++ (c.encodeAfter B (c.encodeAfter A state).2).1,
        (c.encodeAfter B (c.encodeAfter A state).2).2) := by
  cases A with
  | nil =>
      rw [List.nil_append, encodeAfter_nil, List.nil_append]
      cases hlast : state.last with
      | none =>
          -- both sides start the chain in `B`
          rw [encodeAfter_of_last_eq_none c hlast]
          rfl
      | some last => rfl
  | cons first rest =>
      rw [List.cons_append, encodeAfter_cons, encodeAfter_cons]
      have hstarted : ∃ last, (first :: rest).getLast?.or state.last = some last := by
        rw [getLast?_cons_or]
        cases rest.getLast? with
        | none => exact ⟨first, rfl⟩
        | some last => exact ⟨last, rfl⟩
      obtain ⟨last, hlast⟩ := hstarted
      cases B with
      | nil =>
          rw [List.append_nil, encodeAfter_nil, List.append_nil]
          unfold encodeFrom
          rw [hlast]
          rfl
      | cons first' rest' =>
          rw [encodeAfter_cons]
          unfold encodeFrom ChainState.baseFor
          rw [hlast, ← List.cons_append, packEach_append, hlast, List.getLast?_append]
          simp [Option.or_assoc, hlast]

theorem decodeAfter_append (a b : List Packed) (state : ChainState) :
    c.decodeAfter (a ++ b) state =
      ((c.decodeAfter a state).1 ++ (c.decodeAfter b (c.decodeAfter a state).2).1,
        (c.decodeAfter b (c.decodeAfter a state).2).2) := by
  unfold decodeAfter
  dsimp only
  rw [unpackEach_append, List.getLast?_append, Option.or_assoc]

/-! ## Any number of batches -/

/-- Packing nothing changes nothing in a state that a batch left behind. -/
theorem encodeAfter_nil_of_encodeAfter (samples : List Sample) (state : ChainState) :
    c.encodeAfter [] (c.encodeAfter samples state).2 = ([], (c.encodeAfter samples state).2) := by
  have h := c.encodeAfter_append samples [] state
  rw [List.append_nil] at h
  have hstate := congrArg Prod.snd h
  dsimp only at hstate
  rw [encodeAfter_nil] at hstate ⊢
  exact Prod.ext rfl hstate.symm

theorem encodeBatches_eq (batches : List (List Sample)) :
    ∀ state, c.encodeAfter [] state = ([], state) →
      ((c.encodeBatches batches state).1.flatten, (c.encodeBatches batches state).2) =
        c.encodeAfter batches.flatten state := by
  induction batches with
  | nil =>
      intro state h
      exact h.symm
  | cons samples rest ih =>
      intro state _
      have hrest := ih (c.encodeAfter samples state).2 (c.encodeAfter_nil_of_encodeAfter _ _)
      rw [List.flatten_cons, encodeAfter_append, ← hrest]
      rfl

theorem decodeBatches_eq (batches : List (List Packed)) :
    ∀ state, ((c.decodeBatches batches state).1.flatten, (c.decodeBatches batches state).2) =
      c.decodeAfter batches.flatten state := by
  induction batches with
  | nil => intro state; rfl
  | cons batch rest ih =>
      intro state
      have hrest := ih (c.decodeAfter batch state).2
      rw [List.flatten_cons, decodeAfter_append, ← hrest]
      rfl

/-- Batches from the neutral state come to one batch that starts a chain. -/
theorem encodeBatches_neutral (batches : List (List Sample)) :
    ((c.encodeBatches batches {}).1.flatten, (c.encodeBatches batches {}).2) =
      c.encode batches.flatten :=
  c.encodeBatches_eq batches {} rfl

/-- Batches from the neutral state are packed in one walk. -/
theorem exists_encodeBatches_eq_packEach (batches : List (List Sample)) :
    ∃ base, (c.encodeBatches batches {}).1.flatten = c.packEach base none batches.flatten := by
  have hpacked := congrArg Prod.fst (c.encodeBatches_neutral batches)
  dsimp only at hpacked
  rw [hpacked]
  cases batches.flatten with
  | nil => exact ⟨0, rfl⟩
  | cons first rest => exact ⟨first.timestamp, rfl⟩

/-- Batches from a base time come to one batch that started a chain. -/
theorem decodeBatches_base (batches : List (List Packed)) (state : ChainState) :
    (c.decodeBatches batches { base := state.base }).1.flatten = c.decode batches.flatten state :=
  congrArg Prod.fst (c.decodeBatches_eq batches { base := state.base })

/--
**Batch boundaries do not show.**

Encoding two batches one after the other is encoding them in one, from any state, and so is
decoding. Hence any way of cutting a history, empty batches included, gives the packed list and
the state of one batch, and unpacking the batches in a chain gives what one batch unpacks to.
-/
theorem batches_eq_one_batch :
    (∀ A B state,
      c.encodeAfter (A ++ B) state =
        ((c.encodeAfter A state).1 ++ (c.encodeAfter B (c.encodeAfter A state).2).1,
          (c.encodeAfter B (c.encodeAfter A state).2).2)) ∧
    (∀ a b state,
      c.decodeAfter (a ++ b) state =
        ((c.decodeAfter a state).1 ++ (c.decodeAfter b (c.decodeAfter a state).2).1,
          (c.decodeAfter b (c.decodeAfter a state).2).2)) ∧
    (∀ batches,
      let (packed, final) := c.encodeBatches batches {}
      (packed.flatten, final) = c.encode batches.flatten ∧
        (c.decodeBatches packed { base := final.base }).1.flatten =
          c.decode packed.flatten final) ∧
    (∀ batches state,
      (c.decodeBatches batches { base := state.base }).1.flatten =
        c.decode batches.flatten state) :=
  ⟨c.encodeAfter_append, c.decodeAfter_append,
    fun batches => ⟨c.encodeBatches_neutral batches, c.decodeBatches_base _ _⟩,
    c.decodeBatches_base⟩

end Codec

end RoastTelemetry
