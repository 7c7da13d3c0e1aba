import RoastTelemetry.Json.Scanner
import RoastTelemetry.Json.Value

/-!
# From tokens to a tree

A machine that takes one token at a time. It keeps the arrays and objects that are still open,
innermost first, so documents may nest as deep as they like.
-/

namespace RoastTelemetry.Json

/-- An array or object that is still open. -/
inductive Frame where
  /-- An array with its items, latest first. -/
  | array (items : List Value)
  /-- An object with its members, latest first, and the key of the member under way. -/
  | object (members : List (RawString × Value)) (key : RawString)

/-- What the next token has to be. -/
inductive Expectation where
  /-- A value. -/
  | value
  /-- A value, or the end of an array that has just begun. -/
  | firstItem
  /-- A key, or the end of an object that has just begun. -/
  | firstKey
  /-- A key after the given members. -/
  | key (members : List (RawString × Value))
  /-- The colon after a key. -/
  | colon (members : List (RawString × Value)) (key : RawString)
  /-- What may follow a value that is complete: a comma, an end, or nothing. -/
  | separator (value : Value)

/-- The state of the machine. -/
structure Builder where
  /-- What comes next. -/
  expects : Expectation
  /-- What is open around it. -/
  frames : List Frame

namespace Builder

/-- The machine in front of a document. -/
def start : Builder := ⟨.value, []⟩

/-- A token where a value is expected. -/
def beginValue (frames : List Frame) : Token → Option Builder
  | .null => some ⟨.separator .null, frames⟩
  | .bool b => some ⟨.separator (.bool b), frames⟩
  | .number n => some ⟨.separator (.number n), frames⟩
  | .string s => some ⟨.separator (.string s), frames⟩
  | .beginArray => some ⟨.firstItem, frames⟩
  | .beginObject => some ⟨.firstKey, frames⟩
  | _ => none

/-- A token after a complete value. -/
def afterValue (value : Value) : List Frame → Token → Option Builder
  | .array items :: frames, .comma => some ⟨.value, .array (value :: items) :: frames⟩
  | .array items :: frames, .endArray =>
    some ⟨.separator (.array (value :: items).reverse), frames⟩
  | .object members key :: frames, .comma => some ⟨.key ((key, value) :: members), frames⟩
  | .object members key :: frames, .endObject =>
    some ⟨.separator (.object ((key, value) :: members).reverse), frames⟩
  | _, _ => none

/-- One more token. -/
def step (m : Builder) (token : Token) : Option Builder :=
  match m.expects, token with
  | .value, token => beginValue m.frames token
  | .firstItem, .endArray => some ⟨.separator (.array []), m.frames⟩
  | .firstItem, token => beginValue (.array [] :: m.frames) token
  | .firstKey, .endObject => some ⟨.separator (.object []), m.frames⟩
  | .firstKey, .string key => some ⟨.colon [] key, m.frames⟩
  | .key members, .string key => some ⟨.colon members key, m.frames⟩
  | .colon members key, .colon => some ⟨.value, .object members key :: m.frames⟩
  | .separator value, token => afterValue value m.frames token
  | _, _ => none

/-- The tree of a document that ends here. -/
def finish? : Builder → Option Value
  | ⟨.separator value, []⟩ => some value
  | _ => none

end Builder

/-- The tree of a list of tokens, if it is one value and nothing else. -/
def build? (tokens : List Token) : Option Value :=
  (tokens.foldlM Builder.step Builder.start).bind Builder.finish?

/-- Reads a document; none if it is not well formed. -/
def parse? (text : List UInt8) : Option Value := (scan? text).bind build?

end RoastTelemetry.Json
