import RoastTelemetry.Proofs.Json.Records

/-!
# Values in a document

Whole numbers, flags and texts are read as they were written. A floating-point value is written in
its shortest digits, and the reader of a document scales these by a power of ten and may miss the
value by its last bit; whether it comes back is a property of the single value. A value that is not
finite is written as null, which is no number. What is proved of data as a whole therefore speaks
of the floating-point values in it: that they are finite, and that the finite ones come back.
-/

namespace RoastTelemetry

open Json

/-- Reading the text of a value gives the value. -/
def ReadsBack {α : Type} (write : α → Value) (read : Value → Option α) (a : α) : Prop :=
  (parse? (write a).bytes).bind read = some a

/-- The floating-point values in a piece of data. -/
structure Floats where
  /-- Those in single precision. -/
  singles : List Single := []
  /-- Those in double precision. -/
  doubles : List Double := []

theorem Binary.filter_isFinite {f : Format} {x : Option (Binary f)} :
    x.filter isFinite = x ↔ ∀ a ∈ x, a.isFinite = true := by
  cases x with
  | none => simp
  | some a => simp [Option.filter]

namespace Floats

instance : Append Floats := ⟨fun x y => ⟨x.singles ++ y.singles, x.doubles ++ y.doubles⟩⟩

/-- The values in each of some pieces of data. -/
def join (xs : List Floats) : Floats := ⟨xs.flatMap singles, xs.flatMap doubles⟩

/-- Each value has a property. -/
def All (onSingle : Single → Prop) (onDouble : Double → Prop) (x : Floats) : Prop :=
  (∀ s ∈ x.singles, onSingle s) ∧ ∀ d ∈ x.doubles, onDouble d

/-- Each value is finite. -/
def Finite : Floats → Prop := All (·.isFinite = true) (·.isFinite = true)

/-- Each value that is finite is read back from its own text. -/
def Legible : Floats → Prop :=
  All (fun s => s.isFinite = true → ReadsBack .single Value.single? s)
    (fun d => d.isFinite = true → ReadsBack .double Value.double? d)

instance (x : Floats) : Decidable x.Finite :=
  inferInstanceAs (Decidable ((∀ s ∈ x.singles, s.isFinite = true) ∧
    ∀ d ∈ x.doubles, d.isFinite = true))

instance (x : Floats) : Decidable x.Legible :=
  inferInstanceAs (Decidable ((∀ s ∈ x.singles, s.isFinite = true →
      (parse? (Value.single s).bytes).bind Value.single? = some s) ∧
    ∀ d ∈ x.doubles, d.isFinite = true →
      (parse? (Value.double d).bytes).bind Value.double? = some d))

variable {onSingle : Single → Prop} {onDouble : Double → Prop}

theorem all_append {x y : Floats} :
    (x ++ y).All onSingle onDouble ↔ x.All onSingle onDouble ∧ y.All onSingle onDouble := by
  have happend : x ++ y = ⟨x.singles ++ y.singles, x.doubles ++ y.doubles⟩ := rfl
  simp only [happend, All, List.forall_mem_append]
  tauto

theorem all_join {xs : List Floats} :
    (join xs).All onSingle onDouble ↔ ∀ x ∈ xs, x.All onSingle onDouble := by
  simp only [join, All, List.mem_flatMap]
  constructor
  · intro h x hx
    exact ⟨fun s hs => h.1 s ⟨x, hx, hs⟩, fun d hd => h.2 d ⟨x, hx, hd⟩⟩
  · intro h
    refine ⟨?_, ?_⟩
    · rintro s ⟨x, hx, hs⟩
      exact (h x hx).1 s hs
    · rintro d ⟨x, hx, hd⟩
      exact (h x hx).2 d hd

end Floats

/-- Data whose floating-point values are finite and come back comes back as a whole. -/
def RoundTrips {α : Type} (write : α → Value) (read : Value → Option α) (floats : α → Floats) :
    Prop :=
  ∀ a, (floats a).Finite → (floats a).Legible → ReadsBack write read a

namespace Json

namespace Value

/-! ## What has a written form -/

theorem plain_null : null.Plain := by simp [Plain, tokens, Token.Plain]

theorem plain_bool (b : Bool) : (bool b).Plain := by simp [Plain, tokens, Token.Plain]

theorem plain_number (n : Number) : (number n).Plain := by simp [Plain, tokens, Token.Plain]

theorem plain_text (s : String) : (text s).Plain := by
  simp only [Plain, text, tokens, List.mem_singleton, forall_eq]
  exact fun part hpart => RawString.isPlain_of_mem_ofString hpart

theorem plain_option {α : Type} {write : α → Value} (h : ∀ a, (write a).Plain) (x : Option α) :
    (option write x).Plain := by
  cases x with
  | none => exact plain_null
  | some a => exact h a

theorem plain_map {α : Type} {write : α → Value} (h : ∀ a, (write a).Plain) (x : Option α) :
    ∀ v ∈ x.map write, v.Plain := by
  intro v hv
  obtain ⟨a, -, rfl⟩ := Option.map_eq_some_iff.mp hv
  exact h a

/-- A record has a written form if everything that is written of it has one. -/
theorem plain_written {fields : List (String × Option Value)}
    (h : ∀ field ∈ fields, ∀ v ∈ field.2, v.Plain) : (record (written fields)).Plain := by
  refine plain_record ?_
  intro member hmember
  obtain ⟨field, hfield, hvalue⟩ := List.mem_filterMap.mp hmember
  obtain ⟨v, hv, rfl⟩ := Option.map_eq_some_iff.mp hvalue
  exact h field hfield v hv

theorem plain_list {α : Type} {write : α → Value} (h : ∀ a, (write a).Plain) (xs : List α) :
    (list write xs).Plain := by
  refine plain_array ?_
  intro v hv
  obtain ⟨a, -, rfl⟩ := List.mem_map.mp hv
  exact h a

/-! ## Whole numbers -/

theorem toInt?_ofNat {n : Nat} (hn : n < UInt64.size) :
    (Number.ofNat n).toInt? = some (n : Int) := by
  have hmin : Int64.minValue.toInt ≤ 0 := by decide
  have hsigned : Binary.signed false n = n := rfl
  unfold Number.toInt? Number.ofNat
  dsimp only
  rw [hsigned, if_pos (by simp), if_pos]
  simp only [Bool.and_eq_true, decide_eq_true_eq]
  omega

theorem toNatBelow?_of_toInt? {number : Number} {n bound : Nat}
    (h : number.toInt? = some (n : Int)) (hn : n < bound) :
    number.toNatBelow? bound = some n := by
  unfold Number.toNatBelow?
  rw [h]
  dsimp only
  rw [if_pos, Int.toNat_natCast]
  simp only [Bool.and_eq_true, decide_eq_true_eq]
  omega

theorem natBelow?_nat {n bound : Nat} (hn : n < bound) (hbound : bound ≤ UInt64.size) :
    (nat n).natBelow? bound = some n := by
  have hint : (Number.ofNat n).toInt? = some (n : Int) :=
    toInt?_ofNat (Nat.lt_of_lt_of_le hn hbound)
  have hread (number : Number) :
      (Value.number number).natBelow? bound = number.toNatBelow? bound := rfl
  rw [nat, hread, toNatBelow?_of_toInt? hint hn]

theorem uint8?_nat (n : UInt8) : (nat n.toNat).uint8? = some n := by
  unfold uint8?
  rw [natBelow?_nat n.toNat_lt_size (by decide), Option.map_some, UInt8.ofNat_toNat]

theorem uint16?_nat (n : UInt16) : (nat n.toNat).uint16? = some n := by
  unfold uint16?
  rw [natBelow?_nat n.toNat_lt_size (by decide), Option.map_some, UInt16.ofNat_toNat]

theorem uint64?_nat (n : UInt64) : (nat n.toNat).uint64? = some n := by
  unfold uint64?
  rw [natBelow?_nat n.toNat_lt_size (by decide), Option.map_some, UInt64.ofNat_toNat]

/-! ## Floating-point values -/

/-- A finite value is written as a number and any other one as null. -/
structure WritesFinite {f : Format} (write : Binary f → Value) : Prop where
  finite : ∀ x, x.isFinite = true → ∃ n, write x = number n
  other : ∀ x, x.isFinite = false → write x = null

theorem writesFinite_ofBinary? {f : Format} (range : Number.FixedRange) :
    WritesFinite fun x : Binary f => ((Number.ofBinary? range x).map .number).getD .null where
  finite := by
    intro x hx
    cases x with
    | nan => cases hx
    | infinity negative => cases hx
    | finite negative code =>
        unfold Number.ofBinary?
        dsimp only
        split <;> exact ⟨_, rfl⟩
  other := by
    intro x hx
    cases x with
    | nan => rfl
    | infinity negative => rfl
    | finite negative code => cases hx

theorem writesFinite_single : WritesFinite single := writesFinite_ofBinary? _

theorem writesFinite_double : WritesFinite double := writesFinite_ofBinary? _

end Value

theorem readsBack_iff {α : Type} {write : α → Value} {read : Value → Option α} {a : α}
    (h : (write a).Plain) : ReadsBack write read a ↔ read (write a) = some a := by
  unfold ReadsBack
  rw [parse?_bytes h, Option.bind_some]

namespace Value.WritesFinite

variable {f : Format} {write : Binary f → Value} {read : Value → Option (Binary f)} {x : Binary f}

theorem plain (hwrite : WritesFinite write) (x : Binary f) : (write x).Plain := by
  by_cases hx : x.isFinite = true
  · obtain ⟨n, hn⟩ := hwrite.finite x hx
    rw [hn]
    exact plain_number n
  · rw [hwrite.other x (eq_false_of_ne_true hx)]
    exact plain_null

theorem ne_null (hwrite : WritesFinite write) (hx : x.isFinite = true) : write x ≠ .null := by
  obtain ⟨n, hn⟩ := hwrite.finite x hx
  rw [hn]
  nofun

theorem read_eq (hwrite : WritesFinite write) (hx : x.isFinite = true)
    (h : x.isFinite = true → ReadsBack write read x) : read (write x) = some x :=
  (readsBack_iff (hwrite.plain x)).mp (h hx)

/-- What may be null is read as the value if it is finite, and as absent if not. -/
theorem option?_eq (hwrite : WritesFinite write)
    (h : x.isFinite = true → ReadsBack write read x) :
    option? read (write x) = some (if x.isFinite = true then some x else none) := by
  by_cases hx : x.isFinite = true
  · rw [if_pos hx]
    exact option?_of_ne_null (hwrite.ne_null hx) (hwrite.read_eq hx h)
  · rw [if_neg hx, hwrite.other x (eq_false_of_ne_true hx)]
    rfl

end Value.WritesFinite

/-- What is finite and comes back is written as a number that is read as the value. -/
theorem Floats.reads {x : Floats} (hfinite : x.Finite) (hlegible : x.Legible) :
    x.All (fun s => Value.single s ≠ .null ∧ Value.single? (.single s) = some s)
      (fun d => Value.double d ≠ .null ∧ Value.double? (.double d) = some d) := by
  constructor
  · intro s hs
    exact ⟨Value.writesFinite_single.ne_null (hfinite.1 s hs),
      Value.writesFinite_single.read_eq (hfinite.1 s hs) (hlegible.1 s hs)⟩
  · intro d hd
    exact ⟨Value.writesFinite_double.ne_null (hfinite.2 d hd),
      Value.writesFinite_double.read_eq (hfinite.2 d hd) (hlegible.2 d hd)⟩

namespace Record

variable {r : Record} {name : String}

/-- A channel in single precision is read back, unless its value is not finite: then it is read as
absent. -/
theorem nullable_single {x : Option Single} (h : r.get? name = x.map .single)
    (hx : ∀ a ∈ x, a.isFinite = true → ReadsBack .single Value.single? a) :
    r.nullable name Value.single? = some (x.filter Binary.isFinite) := by
  rw [nullable_of_get? h fun a ha => Value.writesFinite_single.option?_eq (hx a ha)]
  cases x <;> rfl

/-- A channel whose values are always read back is read back. -/
theorem nullable_eq {α : Type} {write : α → Value} {read : Value → Option α} {x : Option α}
    (h : r.get? name = x.map write)
    (hread : ∀ a ∈ x, write a ≠ .null ∧ read (write a) = some a) :
    r.nullable name read = some x := by
  rw [nullable_of_get? h fun a ha => Value.option?_of_ne_null (hread a ha).1 (hread a ha).2]
  cases x <;> rfl

theorem nullable_uint16 {x : Option UInt16} (h : r.get? name = x.map (.nat ·.toNat)) :
    r.nullable name Value.uint16? = some x :=
  nullable_eq h fun n _ => ⟨nofun, Value.uint16?_nat n⟩

theorem nullable_uint8 {x : Option UInt8} (h : r.get? name = x.map (.nat ·.toNat)) :
    r.nullable name Value.uint8? = some x :=
  nullable_eq h fun n _ => ⟨nofun, Value.uint8?_nat n⟩

theorem nullable_flag {read : Value → Option Bool} (hread : ∀ b, read (.bool b) = some b)
    {x : Option Bool} (h : r.get? name = x.map .bool) : r.nullable name read = some x :=
  nullable_eq h fun b _ => ⟨nofun, hread b⟩

end Record

end Json

end RoastTelemetry
