import RoastTelemetry.Json.Value

/-!
# Records

A structure is written as an object with one member per field, or as an array of its fields in
their order. In an object the order of the members does not matter, members with other keys are
passed over, and a field written twice is a mistake. In an array trailing fields may be missing.
-/

namespace RoastTelemetry.Json

/-- The two ways to write a record. -/
inductive Layout where
  /-- Fields by name. -/
  | named
  /-- Fields by position. -/
  | positional
deriving DecidableEq

/-- The fields found in a written record. -/
structure Record where
  /-- How the record is written. -/
  layout : Layout
  /-- The fields by name. -/
  fields : List (String × Value)

namespace Value

/-- The members with their keys read as text; every key has to be text. -/
def readKeys? : List (RawString × Value) → Option (List (String × Value))
  | [] => some []
  | (key, v) :: rest => do
    let name ← key.decode?
    let rest ← readKeys? rest
    return (name, v) :: rest

/-- Reads a record with the given fields. -/
def record? (names : List String) : Value → Option Record
  | .object members => do
    let known := (← readKeys? members).filter fun member => names.contains member.1
    if (known.map Prod.fst).Nodup then some ⟨.named, known⟩ else none
  | .array items =>
    if items.length ≤ names.length then some ⟨.positional, names.zip items⟩ else none
  | _ => none

/-- A value in double precision. -/
def double? : Value → Option Double
  | .number n => n.toDouble?
  | _ => none

/-- A value in single precision. -/
def single? : Value → Option Single
  | .number n => n.toSingle?
  | _ => none

/-- A truth value. -/
def bool? : Value → Option Bool
  | .bool b => some b
  | _ => none

/-- A natural number below a bound. -/
def natBelow? (bound : Nat) : Value → Option Nat
  | .number n => n.toNatBelow? bound
  | _ => none

/-- A whole number of eight bits. -/
def uint8? (v : Value) : Option UInt8 := (v.natBelow? UInt8.size).map UInt8.ofNat

/-- A whole number of sixteen bits. -/
def uint16? (v : Value) : Option UInt16 := (v.natBelow? UInt16.size).map UInt16.ofNat

/-- A whole number of sixty-four bits. -/
def uint64? (v : Value) : Option UInt64 := (v.natBelow? UInt64.size).map UInt64.ofNat

/-- A text. -/
def text? : Value → Option String
  | .string s => s.decode?
  | _ => none

/-- A value that may be null. -/
def option? {α : Type} (read : Value → Option α) : Value → Option (Option α)
  | .null => some none
  | v => (read v).map some

/-- A list of values; one that cannot be read spoils it. -/
def list? {α : Type} (read : Value → Option α) : Value → Option (List α)
  | .array items => items.mapM read
  | _ => none

end Value

namespace Record

variable {α : Type}

/-- The value of a field, if the field is there. -/
def get? (r : Record) (name : String) : Option Value := r.fields.lookup name

/-- A field that has to be there. -/
def required (r : Record) (name : String) (read : Value → Option α) : Option α :=
  (r.get? name).bind read

/-- A field with a default for when it is missing. -/
def withDefault (r : Record) (name : String) (default : α) (read : Value → Option α) :
    Option α :=
  match r.get? name with
  | some v => read v
  | none => some default

/-- A field that may be null, or missing in either layout. -/
def nullable (r : Record) (name : String) (read : Value → Option α) : Option (Option α) :=
  r.withDefault name none (Value.option? read)

/-- A field that may be null, or missing where fields have names. -/
def optional (r : Record) (name : String) (read : Value → Option α) : Option (Option α) :=
  match r.get? name, r.layout with
  | some v, _ => v.option? read
  | none, .named => some none
  | none, .positional => none

end Record

end RoastTelemetry.Json
