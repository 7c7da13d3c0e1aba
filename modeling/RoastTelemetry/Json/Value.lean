import RoastTelemetry.Json.Number
import RoastTelemetry.Json.RawString

/-!
# Document trees

A value as written: members in their order, repeated keys kept, strings and numbers unread.
-/

namespace RoastTelemetry.Json

/-- A value of a document. -/
inductive Value where
  | null
  | bool (b : Bool)
  | number (n : Number)
  | string (s : RawString)
  | array (items : List Value)
  | object (members : List (RawString × Value))

instance : Inhabited Value := ⟨.null⟩

namespace Value

/-- A text value. -/
def text (s : String) : Value := .string (RawString.ofString s)

/-- A natural number. -/
def nat (n : Nat) : Value := .number (Number.ofNat n)

/-- A single-precision value; null if it is not finite. -/
def single (x : Single) : Value := ((Number.ofBinary? Number.singleFixed x).map .number).getD .null

/-- A double-precision value; null if it is not finite. -/
def double (x : Double) : Value := ((Number.ofBinary? Number.doubleFixed x).map .number).getD .null

/-- A value that may be missing; null if it is. -/
def option {α : Type} (write : α → Value) (x : Option α) : Value := (x.map write).getD .null

/-- A member that is written only if it has a value. -/
def present {α : Type} (key : String) (write : α → Value) (x : Option α) :
    List (String × Value) :=
  match x with
  | some a => [(key, write a)]
  | none => []

/-- A list of values. -/
def list {α : Type} (write : α → Value) (xs : List α) : Value := .array (xs.map write)

/-- An object with the given members. -/
def record (members : List (String × Value)) : Value :=
  .object (members.map fun (key, v) => (RawString.ofString key, v))

end Value

end RoastTelemetry.Json
