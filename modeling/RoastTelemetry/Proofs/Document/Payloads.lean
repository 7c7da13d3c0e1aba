import RoastTelemetry.Document.Sample
import RoastTelemetry.Proofs.Delta.Presence
import RoastTelemetry.Proofs.Json.Members
import RoastTelemetry.Proofs.Json.Records
import RoastTelemetry.Proofs.Json.Spelling
import Mathlib.Logic.Relation

/-!
# What a payload says

Firmware changes: it sends its members in another order, adds some that nobody here has heard of,
drops them again, or writes null where it used to write nothing. As long as all keys are text, none
of that changes a sample, because the reader looks at a payload only through the values of the keys
it knows, and a channel is read from null as it is from nothing. So a channel is there exactly if
the payload has a value for it, zero included.

What stands under a key that nobody knows may be any value, also one with strings that are no text.
The key itself may not: to find out that nobody knows it, the reader has to read it. A well-formed
payload with half a surrogate pair for a key is therefore refused, whatever else is in it.
-/

namespace RoastTelemetry

open Json

namespace Json

/-- A text is an object with these members in this order; blanks are its own affair. -/
def Spells (text : List UInt8) (members : List (RawString × Value)) : Prop :=
  scan? text = some (Value.object members).tokens

instance (text : List UInt8) (members : List (RawString × Value)) :
    Decidable (Spells text members) :=
  inferInstanceAs (Decidable (scan? text = some (Value.object members).tokens))

namespace Record

variable {α : Type} {r : Record} {name : String} {read : Value → Option α}

/-- A missing field may as well be null. -/
theorem nullable_eq_option? :
    r.nullable name read = Value.option? read ((r.get? name).getD .null) := by
  unfold nullable withDefault
  cases r.get? name <;> rfl

/-- A field that may be null is read as a value exactly if it is there and not null. -/
theorem isSome_of_nullable {x : Option α} (h : r.nullable name read = some x) :
    x.isSome = true ↔ (r.get? name).getD .null ≠ .null := by
  rw [nullable_eq_option?] at h
  generalize (r.get? name).getD .null = v at h ⊢
  cases v
  case null =>
    obtain rfl := Option.some.inj h
    simp
  case bool | number | string | array | object =>
    obtain ⟨a, -, rfl⟩ := Option.map_eq_some_iff.mp h
    simp

end Record

end Json

namespace Sample

/-- The keys of the optional channels, in the order of the fields. -/
def channelNames : List String := fieldNames.tail

/-- A payload has a value for a key. -/
def HasValue (members : List (RawString × Value)) (name : String) : Prop :=
  ∃ member ∈ members, member.1.decode? = some name ∧ member.2 ≠ .null

/-- A change to the members of a payload that ought not to change the sample. -/
inductive Edit : List (RawString × Value) → List (RawString × Value) → Prop where
  /-- The members come in another order. -/
  | reorder {members members' : List (RawString × Value)} (h : members.Perm members') :
      Edit members members'
  /-- There is one more, with any value, under a key that is text but no field. -/
  | foreign (front back : List (RawString × Value)) {key : RawString} {name : String}
      (hkey : key.decode? = some name) (hname : name ∉ fieldNames) (v : Value) :
      Edit (front ++ back) (front ++ (key, v) :: back)
  /-- There is a null for a channel whose key was absent. -/
  | null (front back : List (RawString × Value)) {key : RawString} {name : String}
      (hkey : key.decode? = some name) (hname : name ∈ channelNames)
      (habsent : ∀ member ∈ front ++ back, member.1.decode? ≠ some name) :
      Edit (front ++ back) (front ++ (key, .null) :: back)

/-! ## What is read of a record -/

/-- Two records say the same of a sample; null says the same of a channel as nothing does. -/
structure Indistinct (r r' : Record) : Prop where
  time : r.get? "timestamp" = r'.get? "timestamp"
  channel : ∀ name ∈ channelNames, (r.get? name).getD .null = (r'.get? name).getD .null

theorem ofRecord?_congr {r r' : Record} (h : Indistinct r r') : ofRecord? r = ofRecord? r' := by
  have htime : r.withDefault "timestamp" 0 Value.double? =
      r'.withDefault "timestamp" 0 Value.double? := by
    unfold Record.withDefault
    rw [h.time]
  have hchannel {α : Type} (name : String) (read : Value → Option α)
      (hname : name ∈ channelNames := by decide) :
      r.nullable name read = r'.nullable name read := by
    rw [Record.nullable_eq_option?, Record.nullable_eq_option?, h.channel name hname]
  unfold ofRecord?
  rw [htime, hchannel "beanTemp", hchannel "envTemp", hchannel "setpoint", hchannel "fanPWM",
    hchannel "heaterPWM", hchannel "controlMode", hchannel "heaterEnable", hchannel "rateOfRise",
    hchannel "Kp", hchannel "Ki", hchannel "Kd"]

/-- The channels that are there are those with a value. -/
theorem presence_of_ofRecord? {r : Record} {s : Sample} (h : ofRecord? r = some s) :
    List.Forall₂ (fun name present => present = true ↔ (r.get? name).getD .null ≠ .null)
      channelNames s.presence := by
  unfold ofRecord? at h
  obtain ⟨timestamp, -, h⟩ := Option.bind_eq_some_iff.mp h
  obtain ⟨beanTemp, hbeanTemp, h⟩ := Option.bind_eq_some_iff.mp h
  obtain ⟨envTemp, henvTemp, h⟩ := Option.bind_eq_some_iff.mp h
  obtain ⟨setpoint, hsetpoint, h⟩ := Option.bind_eq_some_iff.mp h
  obtain ⟨fan, hfan, h⟩ := Option.bind_eq_some_iff.mp h
  obtain ⟨heater, hheater, h⟩ := Option.bind_eq_some_iff.mp h
  obtain ⟨mode, hmode, h⟩ := Option.bind_eq_some_iff.mp h
  obtain ⟨heaterOn, hheaterOn, h⟩ := Option.bind_eq_some_iff.mp h
  obtain ⟨rateOfRise, hrateOfRise, h⟩ := Option.bind_eq_some_iff.mp h
  obtain ⟨kp, hkp, h⟩ := Option.bind_eq_some_iff.mp h
  obtain ⟨ki, hki, h⟩ := Option.bind_eq_some_iff.mp h
  obtain ⟨kd, hkd, h⟩ := Option.bind_eq_some_iff.mp h
  obtain rfl := Option.some.inj h
  simp only [channelNames, fieldNames, List.tail_cons, presence, List.forall₂_cons,
    List.forall₂_nil_left_iff, and_true]
  exact ⟨Record.isSome_of_nullable hbeanTemp, Record.isSome_of_nullable henvTemp,
    Record.isSome_of_nullable hsetpoint, Record.isSome_of_nullable hfan,
    Record.isSome_of_nullable hheater, Record.isSome_of_nullable hmode,
    Record.isSome_of_nullable hheaterOn, Record.isSome_of_nullable hrateOfRise,
    Record.isSome_of_nullable hkp, Record.isSome_of_nullable hki, Record.isSome_of_nullable hkd⟩

/-! ## What is read of an object -/

section Object

variable {members members' : List (RawString × Value)}

theorem ofJson?_object_eq_some_iff {s : Sample} :
    ofJson? (.object members) = some s ↔ Value.Readable fieldNames members ∧
      ofRecord? ⟨.named, Value.known fieldNames members⟩ = some s := by
  unfold ofJson?
  rw [Option.bind_eq_some_iff]
  constructor
  · rintro ⟨r, hr, hs⟩
    obtain ⟨hreadable, rfl⟩ := Value.record?_object_eq_some_iff.mp hr
    exact ⟨hreadable, hs⟩
  · rintro ⟨hreadable, hs⟩
    exact ⟨_, Value.record?_object_eq_some_iff.mpr ⟨hreadable, rfl⟩, hs⟩

theorem ofJson?_object_congr
    (hreadable : Value.Readable fieldNames members ↔ Value.Readable fieldNames members')
    (hsame : Value.Readable fieldNames members →
      Indistinct ⟨.named, Value.known fieldNames members⟩
        ⟨.named, Value.known fieldNames members'⟩) :
    ofJson? (.object members) = ofJson? (.object members') := by
  refine Option.ext fun s => ?_
  rw [ofJson?_object_eq_some_iff, ofJson?_object_eq_some_iff, ← hreadable]
  refine and_congr_right fun h => ?_
  rw [ofRecord?_congr (hsame h)]

theorem ofJson?_perm (h : members.Perm members') :
    ofJson? (.object members) = ofJson? (.object members') := by
  refine ofJson?_object_congr ⟨fun hr => hr.perm h, fun hr => hr.perm h.symm⟩ fun hr => ?_
  have hget (name : String) : (Value.known fieldNames members).lookup name =
      (Value.known fieldNames members').lookup name := (hr.lookup_perm h name).symm
  exact ⟨hget _, fun name _ => congrArg (fun x : Option Value => x.getD .null) (hget name)⟩

/-- A member with another key may stand in front. -/
theorem ofJson?_cons_foreign {key : RawString} {name : String} (hkey : key.decode? = some name)
    (hname : name ∉ fieldNames) (v : Value) :
    ofJson? (.object members) = ofJson? (.object ((key, v) :: members)) := by
  refine ofJson?_object_congr (Value.readable_cons_of_not_mem hkey hname v).symm fun _ => ?_
  rw [Value.known_cons_of_not_mem hkey hname]
  exact ⟨rfl, fun _ _ => rfl⟩

/-- A null may stand in front for a channel that is absent. -/
theorem ofJson?_cons_null {key : RawString} {name : String} (hkey : key.decode? = some name)
    (hname : name ∈ channelNames) (habsent : ∀ member ∈ members, member.1.decode? ≠ some name) :
    ofJson? (.object members) = ofJson? (.object ((key, .null) :: members)) := by
  have hfield : name ∈ fieldNames := List.mem_of_mem_tail hname
  refine ofJson?_object_congr (Value.readable_cons_of_new hkey hfield habsent .null).symm
    fun hr => ?_
  -- only the lookup of this name changes, from nothing to null
  rw [Value.known_cons_of_mem hkey hfield]
  have hmissing : (Value.known fieldNames members).lookup name = none := by
    refine Option.eq_none_iff_forall_ne_some.mpr fun v hv => ?_
    obtain ⟨-, key', hmember, hkey'⟩ := hr.lookup_eq_some_iff.mp hv
    exact habsent _ hmember hkey'
  have hother {other : String} (hne : other ≠ name) :
      ((name, Value.null) :: Value.known fieldNames members).lookup other =
        (Value.known fieldNames members).lookup other := by
    rw [List.lookup_cons, beq_eq_false_iff_ne.mpr hne]
  constructor
  · have hne : "timestamp" ≠ name := by
      rintro rfl
      exact absurd hname (by decide)
    exact (hother hne).symm
  · intro other _
    unfold Record.get?
    by_cases heq : other = name
    · subst heq
      rw [hmissing, List.lookup_cons_self]
      rfl
    · rw [hother heq]

/-- An edit does not change what is read. -/
theorem ofJson?_of_edit (h : Edit members members') :
    ofJson? (.object members) = ofJson? (.object members') := by
  cases h with
  | reorder h => exact ofJson?_perm h
  | foreign front back hkey hname v =>
      rw [ofJson?_cons_foreign hkey hname v]
      exact ofJson?_perm List.perm_middle.symm
  | null front back hkey hname habsent =>
      rw [ofJson?_cons_null hkey hname habsent]
      exact ofJson?_perm List.perm_middle.symm

/-- **No edits change what is read**, however many there are. -/
theorem ofJson?_of_edits (h : Relation.EqvGen Edit members members') :
    ofJson? (.object members) = ofJson? (.object members') := by
  induction h with
  | rel _ _ h => exact ofJson?_of_edit h
  | refl _ => rfl
  | symm _ _ _ ih => exact ih.symm
  | trans _ _ _ _ _ ih ih' => exact ih.trans ih'

theorem getD_known_ne_null_iff (h : Value.Readable fieldNames members) {name : String}
    (hname : name ∈ fieldNames) :
    ((Value.known fieldNames members).lookup name).getD .null ≠ .null ↔
      HasValue members name := by
  constructor
  · intro hne
    cases hlookup : (Value.known fieldNames members).lookup name with
    | none => exact absurd (by rw [hlookup]; rfl) hne
    | some v =>
        obtain ⟨-, key, hmember, hkey⟩ := h.lookup_eq_some_iff.mp hlookup
        rw [hlookup] at hne
        exact ⟨(key, v), hmember, hkey, hne⟩
  · rintro ⟨⟨key, v⟩, hmember, hkey, hne⟩
    rw [h.lookup_eq_some_iff.mpr ⟨hname, key, hmember, hkey⟩]
    exact hne

/-- **A channel is there exactly if its key has a value.** -/
theorem presence_of_ofJson? {s : Sample} (h : ofJson? (.object members) = some s) :
    List.Forall₂ (fun name present => present = true ↔ HasValue members name)
      channelNames s.presence := by
  obtain ⟨hreadable, hs⟩ := ofJson?_object_eq_some_iff.mp h
  obtain ⟨hlength, hpresent⟩ := List.forall₂_iff_zip.mp (presence_of_ofRecord? hs)
  refine List.forall₂_iff_zip.mpr ⟨hlength, fun {name present} hmem => ?_⟩
  have hname : name ∈ fieldNames := List.mem_of_mem_tail (List.of_mem_zip hmem).1
  rw [hpresent hmem]
  exact getD_known_ne_null_iff hreadable hname

/-- A key that is no text spoils the object. -/
theorem ofJson?_eq_none_of_key (h : ∃ member ∈ members, member.1.decode? = none) :
    ofJson? (.object members) = none := by
  obtain ⟨member, hmember, hkey⟩ := h
  refine Option.eq_none_iff_forall_ne_some.mpr fun s hs => ?_
  have htext := (ofJson?_object_eq_some_iff.mp hs).1.keys_text member hmember
  rw [hkey] at htext
  cases htext

theorem ofPayload_of_spells {text : List UInt8} (h : Spells text members) :
    ofPayload text = (ofJson? (.object members)).elim (.error .malformedSample) .ok := by
  unfold ofPayload
  rw [parse?_eq_some_iff.mpr h, Option.bind_some]
  cases ofJson? (.object members) <;> rfl

end Object

/--
**What a payload says does not depend on the order of its members, on foreign members or on nulls.**

Take any text that is an object, and any other one whose members come from it by any number of
edits: a change of order, a member more or less under a key that is text but no field, whatever is
in it, and a null more or less for a channel that is otherwise absent. Both are read as the same
sample, or both are refused. If the sample is read, its channels are those whose keys come with a
value other than null. A payload with a key that is no text is refused.
-/
theorem ofPayload_of_members {text : List UInt8} {members : List (RawString × Value)}
    (htext : Spells text members) :
    (∀ edited members', Spells edited members' → Relation.EqvGen Edit members members' →
      ofPayload edited = ofPayload text) ∧
    (∀ s, ofPayload text = .ok s →
      List.Forall₂ (fun name present => present = true ↔ HasValue members name)
        channelNames s.presence) ∧
    ((∃ member ∈ members, member.1.decode? = none) →
      ofPayload text = .error .malformedSample) := by
  rw [ofPayload_of_spells htext]
  refine ⟨?_, ?_, ?_⟩
  · intro edited members' hedited hedits
    rw [ofPayload_of_spells hedited, ofJson?_of_edits hedits]
  · intro s hs
    cases hread : ofJson? (.object members) with
    | none => rw [hread] at hs; cases hs
    | some s' =>
        rw [hread] at hs
        obtain rfl := Except.ok.inj hs
        exact presence_of_ofJson? hread
  · intro hkey
    rw [ofJson?_eq_none_of_key hkey]
    rfl

/-- New firmware sends the same payload in another order, with a null and with foreign members, one
of them twice and one with a lone surrogate in it. -/
theorem ofPayload_of_members_newer :
    let time : RawString × Value :=
      (RawString.ofString "timestamp", .number ⟨false, 12, [⟨5, by decide⟩], none⟩)
    let bean : RawString × Value :=
      (RawString.ofString "beanTemp", .number ⟨false, 0, [Digit.zero], none⟩)
    let uptime : RawString × Value := (RawString.ofString "uptime", .number ⟨false, 1, [], none⟩)
    let nested : RawString × Value :=
      (RawString.ofString "x", .array [.object
        [(RawString.ofString "y", .string [.codeUnit 0xD800])]])
    let env : RawString × Value := (RawString.ofString "envTemp", .null)
    let older := word "\x7b\"timestamp\":12.5,\"beanTemp\":0.0\x7d"
    let newer := word ("\x7b \"uptime\" : 1, \"beanTemp\":0.0, \"x\": [\x7b\"y\": \"\\ud800\"\x7d],"
      ++ "\"envTemp\":null,\"timestamp\":12.5,\"uptime\":1\x7d\n")
    Spells older [time, bean] ∧ Spells newer [uptime, bean, nested, env, time, uptime] ∧
      Relation.EqvGen Edit [time, bean] [uptime, bean, nested, env, time, uptime] ∧
      ofPayload older = .ok { timestamp := 12.5, beanTemp := some 0 } ∧
      ofPayload newer = .ok { timestamp := 12.5, beanTemp := some 0 } := by
  intro time bean uptime nested env older newer
  have holder : Spells older [time, bean] := by decide +kernel
  have hnewer : Spells newer [uptime, bean, nested, env, time, uptime] := by decide +kernel
  have huptime : uptime.1.decode? = some "uptime" := by decide +kernel
  have hnested : nested.1.decode? = some "x" := by decide +kernel
  have henv : env.1.decode? = some "envTemp" := by decide +kernel
  have habsent : ∀ member ∈ [uptime, bean, nested] ++ [time],
      member.1.decode? ≠ some "envTemp" := by
    decide +kernel
  have hedits : Relation.EqvGen Edit [time, bean] [uptime, bean, nested, env, time, uptime] :=
    .trans _ _ _ (.rel _ _ (.reorder (.swap bean time [])))
    <| .trans _ _ _ (.rel _ _ (.foreign [] [bean, time] huptime (by decide) _))
    <| .trans _ _ _ (.rel _ _ (.foreign [uptime, bean] [time] hnested (by decide) _))
    <| .trans _ _ _ (.rel _ _ (.null [uptime, bean, nested] [time] henv (by decide) habsent))
    <| .rel _ _ (.foreign [uptime, bean, nested, env, time] [] huptime (by decide) _)
  have hread : ofJson? (.object [time, bean]) =
      some { timestamp := 12.5, beanTemp := some 0 } := by
    decide +kernel
  have hsample : ofPayload older = .ok { timestamp := 12.5, beanTemp := some 0 } := by
    rw [ofPayload_of_spells holder, hread]
    rfl
  exact ⟨holder, hnewer, hedits, hsample,
    ((ofPayload_of_members holder).1 _ _ hnewer hedits).trans hsample⟩

/-- A foreign member whose key is half a surrogate pair has a payload refused that is read without
it, and both are well-formed objects. -/
theorem foreign_key_without_text_refused :
    let time : RawString × Value := (RawString.ofString "timestamp", .number ⟨false, 1, [], none⟩)
    let foreign : RawString × Value := ([.codeUnit 0xD800], .number ⟨false, 1, [], none⟩)
    let payload := word "\x7b\"timestamp\":1\x7d"
    let spoiled := word "\x7b\"timestamp\":1,\"\\ud800\":1\x7d"
    (∀ name ∈ fieldNames, foreign.1.decode? ≠ some name) ∧
      Spells payload [time] ∧ Spells spoiled [time, foreign] ∧
      ofPayload payload = .ok { timestamp := 1 } ∧
      ofPayload spoiled = .error .malformedSample := by
  intro time foreign payload spoiled
  have hkey : foreign.1.decode? = none := by decide +kernel
  have hpayload : Spells payload [time] := by decide +kernel
  have hspoiled : Spells spoiled [time, foreign] := by decide +kernel
  have hread : ofJson? (.object [time]) = some { timestamp := 1 } := by decide +kernel
  refine ⟨fun name _ => by rw [hkey]; nofun, hpayload, hspoiled, ?_, ?_⟩
  · rw [ofPayload_of_spells hpayload, hread]
    rfl
  · rw [ofPayload_of_spells hspoiled, ofJson?_eq_none_of_key ⟨foreign, by simp, hkey⟩]
    rfl

end Sample

end RoastTelemetry
