import RoastTelemetry.Json.Number
import RoastTelemetry.Json.RawString

/-!
# Tokens and their text

Each token has one written form here; the scanner accepts others as well (blanks between tokens,
other escapes, an exponent without sign).
-/

namespace RoastTelemetry.Json

/-- A lexical unit of a document. -/
inductive Token where
  | beginArray
  | endArray
  | beginObject
  | endObject
  | colon
  | comma
  | null
  | bool (b : Bool)
  | number (n : Number)
  | string (s : RawString)
deriving DecidableEq

/-- A character below 256 as a byte. -/
def byte (c : Char) : UInt8 := c.toUInt8

/-- The bytes of an ASCII word. -/
def word (s : String) : List UInt8 := s.toList.map byte

/-- The byte of a decimal digit. -/
def digitByte (d : Digit) : UInt8 := byte '0' + d.val.toUInt8

/-- The digits of a natural number. -/
def natBytes (n : Nat) : List UInt8 := (Digit.ofNat n).map digitByte

/-- The byte of a hexadecimal digit. -/
def hexByte (n : Nat) : UInt8 :=
  if n < 10 then byte '0' + n.toUInt8 else byte 'a' + (n - 10).toUInt8

/-- An escaped unit: four hexadecimal digits. -/
def unitBytes (n : Nat) : List UInt8 :=
  word "\\u"
    ++ [hexByte (n / 4096 % 16), hexByte (n / 256 % 16), hexByte (n / 16 % 16), hexByte (n % 16)]

/-- A byte of a string, escaped if it cannot stand for itself. -/
def stringByte (b : UInt8) : List UInt8 :=
  if b = byte '"' then word "\\\""
  else if b = byte '\\' then word "\\\\"
  else if b = 0x08 then word "\\b"
  else if b = 0x09 then word "\\t"
  else if b = 0x0A then word "\\n"
  else if b = 0x0C then word "\\f"
  else if b = 0x0D then word "\\r"
  else if b < 0x20 then unitBytes b.toNat
  else [b]

/-- The bytes of a part of a string. -/
def StringPart.bytes : StringPart → List UInt8
  | .byte b => stringByte b
  | .codeUnit u => unitBytes u.toNat

/-- The bytes of a number. -/
def Number.bytes (n : Number) : List UInt8 :=
  (if n.negative then word "-" else [])
    ++ natBytes n.whole
    ++ (if n.fraction.isEmpty then [] else byte '.' :: n.fraction.map digitByte)
    ++ match n.exponent with
      | none => []
      | some e => word (if e < 0 then "e-" else "e+") ++ natBytes e.natAbs

/-- The bytes of a token. -/
def Token.bytes : Token → List UInt8
  | .beginArray => word "["
  | .endArray => word "]"
  | .beginObject => word "\x7b"
  | .endObject => word "\x7d"
  | .colon => word ":"
  | .comma => word ","
  | .null => word "null"
  | .bool b => word (if b then "true" else "false")
  | .number n => n.bytes
  | .string s => byte '"' :: s.flatMap StringPart.bytes ++ [byte '"']

end RoastTelemetry.Json
