import RoastTelemetry.Json.Token
import RoastTelemetry.Json.Value

/-!
# Writing a document

Compact: tokens follow each other without blanks, members in the order of the tree.
-/

namespace RoastTelemetry.Json

mutual

/-- The tokens of a value. -/
def Value.tokens : Value → List Token
  | .null => [.null]
  | .bool b => [.bool b]
  | .number n => [.number n]
  | .string s => [.string s]
  | .array [] => [.beginArray, .endArray]
  | .array (v :: rest) => .beginArray :: v.tokens ++ itemTokens rest
  | .object [] => [.beginObject, .endObject]
  | .object ((key, v) :: rest) =>
    .beginObject :: .string key :: .colon :: v.tokens ++ memberTokens rest

/-- The tokens after an item: further items and the end of the array. -/
def itemTokens : List Value → List Token
  | [] => [.endArray]
  | v :: rest => .comma :: v.tokens ++ itemTokens rest

/-- The tokens after a member: further members and the end of the object. -/
def memberTokens : List (RawString × Value) → List Token
  | [] => [.endObject]
  | (key, v) :: rest => .comma :: .string key :: .colon :: v.tokens ++ memberTokens rest

end

/-- The bytes of a document. -/
def Value.bytes (v : Value) : List UInt8 := v.tokens.flatMap Token.bytes

end RoastTelemetry.Json
