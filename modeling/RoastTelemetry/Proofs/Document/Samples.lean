import RoastTelemetry.Document.Packed
import RoastTelemetry.Proofs.Document.Floats
import RoastTelemetry.Proofs.Document.Gains

/-!
# Samples are read as they were written

An absent channel is not written and a missing key is read as absent, so the channels that are
present come back as such and no others. The device may send the heater flag as a number, but it is
written as a flag, which the reader of the flag takes as well. A channel that is infinite or no
number would be written as null and come back absent.
-/

namespace RoastTelemetry

open Json

namespace Sample

/-- The floating-point values in a sample. -/
def floats (s : Sample) : Floats where
  singles := s.beanTemp.toList ++ s.envTemp.toList ++ s.setpoint.toList ++ s.rateOfRise.toList
    ++ (s.kp.map Gain.value).toList ++ (s.ki.map Gain.value).toList
    ++ (s.kd.map Gain.value).toList
  doubles := [s.timestamp]

/-- The sample with its finite channels only. -/
def finiteChannels (s : Sample) : Sample :=
  { s with
    beanTemp := s.beanTemp.filter Binary.isFinite
    envTemp := s.envTemp.filter Binary.isFinite
    setpoint := s.setpoint.filter Binary.isFinite
    rateOfRise := s.rateOfRise.filter Binary.isFinite
    kp := s.kp.filter fun g => g.value.isFinite
    ki := s.ki.filter fun g => g.value.isFinite
    kd := s.kd.filter fun g => g.value.isFinite }

/-- What is written of a sample, field by field. -/
def fields (s : Sample) : List (String × Option Value) :=
  [("timestamp", some (.double s.timestamp)),
    ("beanTemp", s.beanTemp.map .single),
    ("envTemp", s.envTemp.map .single),
    ("setpoint", s.setpoint.map .single),
    ("fanPWM", s.fan.map (.nat ·.toNat)),
    ("heaterPWM", s.heater.map (.nat ·.toNat)),
    ("controlMode", s.mode.map (.nat ·.toNat)),
    ("heaterEnable", s.heaterOn.map .bool),
    ("rateOfRise", s.rateOfRise.map .single),
    ("Kp", s.kp.map Gain.toJson),
    ("Ki", s.ki.map Gain.toJson),
    ("Kd", s.kd.map Gain.toJson)]

theorem toJson_eq (s : Sample) : s.toJson = .record (written s.fields) := by
  unfold toJson fields
  rw [written_some]
  simp only [written_present, written_nil, List.append_nil, List.cons_append, List.append_assoc]

theorem plain_toJson (s : Sample) : s.toJson.Plain := by
  have hsingle := Value.plain_map Value.writesFinite_single.plain
  have hgain := Value.plain_map fun g : Gain => Value.writesFinite_single.plain g.value
  have hnat {α : Type} (toNat : α → Nat) :=
    Value.plain_map fun a : α => Value.plain_number (Number.ofNat (toNat a))
  rw [toJson_eq]
  refine Value.plain_written ?_
  simp only [fields, List.forall_mem_cons, Option.mem_some_iff, forall_eq']
  exact ⟨Value.writesFinite_double.plain _, hsingle _, hsingle _, hsingle _, hnat _ _, hnat _ _,
    hnat _ _, Value.plain_map Value.plain_bool _, hsingle _, hgain _, hgain _, hgain _,
    List.forall_mem_nil _⟩

/-- **A sample taken at a finite time is read back with its finite channels.** -/
theorem ofJson?_toJson {s : Sample} (htime : s.timestamp.isFinite = true)
    (hlegible : s.floats.Legible) : ofJson? s.toJson = some s.finiteChannels := by
  obtain ⟨hsingles, hdoubles⟩ := hlegible
  simp only [floats, List.forall_mem_append, Option.mem_toList] at hsingles
  obtain ⟨⟨⟨⟨⟨⟨hbean, henv⟩, hset⟩, hrate⟩, hkp⟩, hki⟩, hkd⟩ := hsingles
  obtain ⟨r, hrecord, hget⟩ : ∃ r : Record, s.toJson.record? fieldNames = some r ∧
      ∀ name value, (name, value) ∈ s.fields → r.get? name = value := by
    rw [toJson_eq]
    exact Value.exists_record rfl (by decide)
  have htimestamp : r.withDefault "timestamp" 0 Value.double? = some s.timestamp := by
    rw [Record.withDefault_of_get? (hget _ _ List.mem_cons_self)]
    exact Value.writesFinite_double.read_eq htime (hdoubles s.timestamp List.mem_cons_self)
  have hchannel (name : String) {x : Option Single} (hmem : (name, x.map .single) ∈ s.fields)
      (hx : ∀ a ∈ x, a.isFinite = true → ReadsBack .single Value.single? a) :
      r.nullable name Value.single? = some (x.filter Binary.isFinite) :=
    Record.nullable_single (hget _ _ hmem) hx
  have hbeanTemp := hchannel "beanTemp" (by simp [fields]) hbean
  have henvTemp := hchannel "envTemp" (by simp [fields]) henv
  have hsetpoint := hchannel "setpoint" (by simp [fields]) hset
  have hfan : r.nullable "fanPWM" Value.uint16? = some s.fan :=
    Record.nullable_uint16 (hget _ _ (by simp [fields]))
  have hheater : r.nullable "heaterPWM" Value.uint16? = some s.heater :=
    Record.nullable_uint16 (hget _ _ (by simp [fields]))
  have hmode : r.nullable "controlMode" Value.uint8? = some s.mode :=
    Record.nullable_uint8 (hget _ _ (by simp [fields]))
  have hheaterOn : r.nullable "heaterEnable" flag? = some s.heaterOn :=
    Record.nullable_flag (fun _ => rfl) (hget _ _ (by simp [fields]))
  have hrateOfRise := hchannel "rateOfRise" (by simp [fields]) hrate
  have hgain (name : String) {x : Option Gain} (hmem : (name, x.map Gain.toJson) ∈ s.fields)
      (hx : ∀ a ∈ x.map Gain.value, a.isFinite = true → ReadsBack .single Value.single? a) :
      r.nullable name Gain.ofJson? = some (x.filter fun g => g.value.isFinite) :=
    Record.nullable_gain (hget _ _ hmem) hx
  have hgainP := hgain "Kp" (by simp [fields]) hkp
  have hgainI := hgain "Ki" (by simp [fields]) hki
  have hgainD := hgain "Kd" (by simp [fields]) hkd
  unfold ofJson? ofRecord?
  simp only [hrecord, htimestamp, hbeanTemp, henvTemp, hsetpoint, hfan, hheater, hmode, hheaterOn,
    hrateOfRise, hgainP, hgainI, hgainD, Option.bind_eq_bind, Option.bind_some]
  rfl

/-- Nothing is lost exactly when all values are finite. -/
theorem finiteChannels_eq_iff {s : Sample} (htime : s.timestamp.isFinite = true) :
    s.finiteChannels = s ↔ s.floats.Finite := by
  have hdoubles : ∀ d ∈ s.floats.doubles, d.isFinite = true := by
    intro d hd
    obtain rfl := List.mem_singleton.mp hd
    exact htime
  have hfinite : s.floats.Finite ↔ ∀ x ∈ s.floats.singles, x.isFinite = true :=
    and_iff_left hdoubles
  rw [hfinite]
  cases s
  simp only [finiteChannels, floats, mk.injEq, Binary.filter_isFinite, Gain.filter_isFinite,
    List.forall_mem_append, Option.mem_toList, Option.mem_def, true_and, and_assoc]

theorem ofJson?_toJson_of_finite {s : Sample} (hfinite : s.floats.Finite)
    (hlegible : s.floats.Legible) : ofJson? s.toJson = some s := by
  have htime : s.timestamp.isFinite = true := hfinite.2 s.timestamp List.mem_cons_self
  rw [ofJson?_toJson htime hlegible, (finiteChannels_eq_iff htime).mpr hfinite]

end Sample

namespace Packed

/-- The floating-point values in a packed sample. -/
def floats (p : Packed) : Floats where
  singles := p.beanTemp.toList ++ p.envTemp.toList ++ p.setpoint.toList ++ p.rateOfRise.toList
    ++ (p.kp.map Gain.value).toList ++ (p.ki.map Gain.value).toList
    ++ (p.kd.map Gain.value).toList
  doubles := [p.offset]

/-- What is written of a packed sample, field by field. -/
def fields (p : Packed) : List (String × Option Value) :=
  [("t", some (.double p.offset)),
    ("bt", p.beanTemp.map .single),
    ("et", p.envTemp.map .single),
    ("sp", p.setpoint.map .single),
    ("fan", p.fan.map (.nat ·.toNat)),
    ("ht", p.heater.map (.nat ·.toNat)),
    ("m", p.mode.map (.nat ·.toNat)),
    ("he", p.heaterOn.map .bool),
    ("ror", p.rateOfRise.map .single),
    ("kp", p.kp.map Gain.toJson),
    ("ki", p.ki.map Gain.toJson),
    ("kd", p.kd.map Gain.toJson)]

theorem toJson_eq (p : Packed) : p.toJson = .record (written p.fields) := by
  unfold toJson fields
  rw [written_some]
  simp only [written_present, written_nil, List.append_nil, List.cons_append, List.append_assoc]

theorem plain_toJson (p : Packed) : p.toJson.Plain := by
  have hsingle := Value.plain_map Value.writesFinite_single.plain
  have hgain := Value.plain_map fun g : Gain => Value.writesFinite_single.plain g.value
  have hnat {α : Type} (toNat : α → Nat) :=
    Value.plain_map fun a : α => Value.plain_number (Number.ofNat (toNat a))
  rw [toJson_eq]
  refine Value.plain_written ?_
  simp only [fields, List.forall_mem_cons, Option.mem_some_iff, forall_eq']
  exact ⟨Value.writesFinite_double.plain _, hsingle _, hsingle _, hsingle _, hnat _ _, hnat _ _,
    hnat _ _, Value.plain_map Value.plain_bool _, hsingle _, hgain _, hgain _, hgain _,
    List.forall_mem_nil _⟩

theorem ofJson?_toJson {p : Packed} (hfinite : p.floats.Finite) (hlegible : p.floats.Legible) :
    ofJson? p.toJson = some p := by
  obtain ⟨hsingles, hdoubles⟩ := Floats.reads hfinite hlegible
  simp only [floats, List.forall_mem_append, Option.mem_toList] at hsingles
  obtain ⟨⟨⟨⟨⟨⟨hbean, henv⟩, hset⟩, hrate⟩, hkp⟩, hki⟩, hkd⟩ := hsingles
  obtain ⟨r, hrecord, hget⟩ : ∃ r : Record, p.toJson.record? fieldNames = some r ∧
      ∀ name value, (name, value) ∈ p.fields → r.get? name = value := by
    rw [toJson_eq]
    exact Value.exists_record rfl (by decide)
  have hoffset : r.required "t" Value.double? = some p.offset := by
    rw [Record.required_of_get? (hget _ _ List.mem_cons_self)]
    exact (hdoubles p.offset List.mem_cons_self).2
  have hchannel (name : String) {x : Option Single} (hmem : (name, x.map .single) ∈ p.fields)
      (hx : ∀ a ∈ x, Value.single a ≠ .null ∧ Value.single? (.single a) = some a) :
      r.nullable name Value.single? = some x :=
    Record.nullable_eq (hget _ _ hmem) hx
  have hbeanTemp := hchannel "bt" (by simp [fields]) hbean
  have henvTemp := hchannel "et" (by simp [fields]) henv
  have hsetpoint := hchannel "sp" (by simp [fields]) hset
  have hfan : r.nullable "fan" Value.uint16? = some p.fan :=
    Record.nullable_uint16 (hget _ _ (by simp [fields]))
  have hheater : r.nullable "ht" Value.uint16? = some p.heater :=
    Record.nullable_uint16 (hget _ _ (by simp [fields]))
  have hmode : r.nullable "m" Value.uint8? = some p.mode :=
    Record.nullable_uint8 (hget _ _ (by simp [fields]))
  have hheaterOn : r.nullable "he" Value.bool? = some p.heaterOn :=
    Record.nullable_flag (fun _ => rfl) (hget _ _ (by simp [fields]))
  have hrateOfRise := hchannel "ror" (by simp [fields]) hrate
  have hgain (name : String) {x : Option Gain} (hmem : (name, x.map Gain.toJson) ∈ p.fields)
      (hx : ∀ a ∈ x.map Gain.value,
        Value.single a ≠ .null ∧ Value.single? (.single a) = some a) :
      r.nullable name Gain.ofJson? = some x :=
    Record.nullable_eq (hget _ _ hmem) fun g hg =>
      Gain.ofJson?_toJson (hx g.value (Option.mem_map_of_mem _ hg))
  have hgainP := hgain "kp" (by simp [fields]) hkp
  have hgainI := hgain "ki" (by simp [fields]) hki
  have hgainD := hgain "kd" (by simp [fields]) hkd
  unfold ofJson?
  simp only [hrecord, hoffset, hbeanTemp, henvTemp, hsetpoint, hfan, hheater, hmode, hheaterOn,
    hrateOfRise, hgainP, hgainI, hgainD, Option.bind_eq_bind, Option.bind_some]
  rfl

end Packed

namespace ChainState

/-- The floating-point values in a chain state. -/
def floats (s : ChainState) : Floats :=
  { doubles := [s.base] } ++ Floats.join (s.last.toList.map Sample.floats)

theorem plain_toJson (s : ChainState) : s.toJson.Plain := by
  refine Value.plain_record ?_
  simp only [List.forall_mem_cons]
  exact ⟨Value.writesFinite_double.plain _, Value.plain_option Sample.plain_toJson _,
    List.forall_mem_nil _⟩

theorem ofJson?_toJson {s : ChainState} (hfinite : s.floats.Finite)
    (hlegible : s.floats.Legible) : ofJson? s.toJson = some s := by
  obtain ⟨hbaseFinite, hlastFinite⟩ := Floats.all_append.mp hfinite
  obtain ⟨hbaseLegible, hlastLegible⟩ := Floats.all_append.mp hlegible
  have hbase := (Floats.reads hbaseFinite hbaseLegible).2 s.base List.mem_cons_self
  have hlast : ∀ sample ∈ s.last, sample.toJson ≠ .null ∧
      Sample.ofJson? sample.toJson = some sample := by
    intro sample hsample
    have hmem : sample.floats ∈ s.last.toList.map Sample.floats :=
      List.mem_map_of_mem (Option.mem_toList.mpr hsample)
    exact ⟨nofun, Sample.ofJson?_toJson_of_finite (Floats.all_join.mp hlastFinite _ hmem)
      (Floats.all_join.mp hlastLegible _ hmem)⟩
  unfold ofJson?
  refine Record.bind_field (Value.record?_record (by simp) (by simp)) ?_
  refine Record.bind_field ((Record.required_of_get? rfl).trans hbase.2) ?_
  refine Record.bind_field ((Record.optional_of_get? rfl).trans (Value.option?_option hlast)) ?_
  rfl

end ChainState

end RoastTelemetry
