import RoastTelemetry.Delta.Packed
import RoastTelemetry.Refusal

/-!
# Delta coding at a fixed precision

Values are rounded to whole steps of `1 / precision`. Differences are taken between step counts,
not between readings, and added to the step count of the decoded value before: so the decoder
lands on the step of each reading, and rounding errors do not add up along a chain.

A batch either starts a chain or continues one from the state that the batch before left behind.
-/

namespace RoastTelemetry

/--
The finest precision. Decoded temperatures are single-precision values, whose spacing below 4096
is less than half a step at this precision.
-/
def Codec.maxPrecision : Double := 1000

/-- The precision used when none is given: tenths. -/
def Codec.defaultPrecision : Double := 10

/-- A coder that rounds to `1 / precision`. -/
structure Codec where
  /-- Steps per unit. -/
  precision : Double
  /-- Steps are of finite size and not finer than decoded values can tell apart. -/
  precision_range : precision.isFinite ∧ 0 < precision ∧ precision ≤ Codec.maxPrecision

namespace Codec

/-- A coder with the given precision, if that is in range. -/
def ofPrecision (precision : Double) : Except Refusal Codec :=
  if h : precision.isFinite ∧ 0 < precision ∧ precision ≤ maxPrecision then .ok ⟨precision, h⟩
  else .error (.precision precision)

variable (c : Codec)

/-- A value in whole steps. -/
def steps (x : Double) : Double := (x * c.precision).round

/-- A value rounded to a whole number of steps. -/
def roundToStep (x : Double) : Double := c.steps x / c.precision

/-- What is stored for a reading: its difference from the reading before, or all of it. -/
def difference (before current : Option Single) : Option Single :=
  current.map fun x =>
    match before with
    | some r => ((c.steps x.widen - c.steps r.widen) / c.precision).narrow
    | none => (c.roundToStep x.widen).narrow

/-- The reading restored from what is stored: added to the value before, or taken as it is. -/
def restore (before stored : Option Single) : Option Single :=
  stored.map fun x =>
    match before with
    | some r => ((c.steps r.widen + c.steps x.widen) / c.precision).narrow
    | none => x.widen.narrow

/-- Packs a sample that follows `before`. -/
def pack (base : Double) (before : Option Sample) (s : Sample) : Packed where
  offset := c.roundToStep (s.timestamp - base)
  beanTemp := c.difference (before.bind Sample.beanTemp) s.beanTemp
  envTemp := c.difference (before.bind Sample.envTemp) s.envTemp
  setpoint := c.difference (before.bind Sample.setpoint) s.setpoint
  fan := s.fan
  heater := s.heater
  mode := s.mode
  heaterOn := s.heaterOn
  rateOfRise := s.rateOfRise.map fun x => (c.roundToStep x.widen).narrow
  kp := s.kp
  ki := s.ki
  kd := s.kd

/-- Unpacks a sample that follows `before`. -/
def unpack (base : Double) (before : Option Sample) (p : Packed) : Sample where
  timestamp := base + p.offset
  beanTemp := c.restore (before.bind Sample.beanTemp) p.beanTemp
  envTemp := c.restore (before.bind Sample.envTemp) p.envTemp
  setpoint := c.restore (before.bind Sample.setpoint) p.setpoint
  fan := p.fan
  heater := p.heater
  mode := p.mode
  heaterOn := p.heaterOn
  rateOfRise := p.rateOfRise
  kp := p.kp
  ki := p.ki
  kd := p.kd

/-- Packs samples each of which follows the one before. -/
def packEach (base : Double) : Option Sample → List Sample → List Packed
  | _, [] => []
  | before, s :: rest => c.pack base before s :: packEach base (some s) rest

/-- Unpacks samples each of which follows the one unpacked before. -/
def unpackEach (base : Double) : Option Sample → List Packed → List Sample
  | _, [] => []
  | before, p :: rest =>
    c.unpack base before p :: unpackEach base (some (c.unpack base before p)) rest

@[simp]
theorem length_packEach (base : Double) (before : Option Sample) (samples : List Sample) :
    (c.packEach base before samples).length = samples.length := by
  induction samples generalizing before with
  | nil => rfl
  | cons s rest ih => simp [packEach, ih]

@[simp]
theorem length_unpackEach (base : Double) (before : Option Sample) (batch : List Packed) :
    (c.unpackEach base before batch).length = batch.length := by
  induction batch generalizing before with
  | nil => rfl
  | cons p rest ih => simp [unpackEach, ih]

/-- Packs a batch that continues from a base time and a sample. -/
def encodeFrom (base : Double) (before : Option Sample) (samples : List Sample) :
    List Packed × ChainState :=
  (c.packEach base before samples, { base, last := samples.getLast?.or before })

/-- Packs a batch that starts a chain, whose base is the time of its first sample. -/
def encode : List Sample → List Packed × ChainState
  | [] => ([], {})
  | first :: rest => c.encodeFrom first.timestamp none (first :: rest)

/-- Packs a batch that continues a chain; a chain without a sample is yet to be started. -/
def encodeAfter (samples : List Sample) (state : ChainState) : List Packed × ChainState :=
  match state.last with
  | none => c.encode samples
  | some last =>
    if samples.isEmpty then ([], state) else c.encodeFrom state.base (some last) samples

/-- Unpacks a batch that started a chain. Of the state only the base time is used. -/
def decode (batch : List Packed) (state : ChainState) : List Sample :=
  c.unpackEach state.base none batch

/-- Unpacks a batch that continues a chain, and gives the state after it. -/
def decodeAfter (batch : List Packed) (state : ChainState) : List Sample × ChainState :=
  let samples := c.unpackEach state.base state.last batch
  (samples, { base := state.base, last := samples.getLast?.or state.last })

end Codec

end RoastTelemetry
