import RoastTelemetry.Json.Token

/-!
# From bytes to tokens

A machine that takes one byte at a time. Between tokens it skips blanks; inside a token it knows
what may follow. Numbers have no closing mark: the byte after a number ends it and is then taken
as the first byte of what follows.
-/

namespace RoastTelemetry.Json

/-- The decimal digit of a byte. -/
def digit? (b : UInt8) : Option Digit :=
  if byte '0' ≤ b && b ≤ byte '9' then some ⟨(b - byte '0').toNat % 10, Nat.mod_lt _ (by decide)⟩
  else none

/-- The hexadecimal digit of a byte. -/
def hexDigit? (b : UInt8) : Option Nat :=
  if byte '0' ≤ b && b ≤ byte '9' then some (b - byte '0').toNat
  else if byte 'a' ≤ b && b ≤ byte 'f' then some ((b - byte 'a').toNat + 10)
  else if byte 'A' ≤ b && b ≤ byte 'F' then some ((b - byte 'A').toNat + 10)
  else none

/-- How far a number has been written. -/
inductive NumberPhase where
  /-- A minus sign. -/
  | sign
  /-- A zero in front of the point, after which no digit may come. -/
  | zero
  /-- Digits in front of the point. -/
  | whole
  /-- The point. -/
  | point
  /-- Digits after the point. -/
  | fraction
  /-- The mark of an exponent. -/
  | mark
  /-- The sign of an exponent. -/
  | markSign
  /-- Digits of an exponent. -/
  | exponent
deriving DecidableEq

/-- A number in the course of being read. -/
structure NumberScan where
  /-- How far it has come. -/
  phase : NumberPhase
  /-- Whether it starts with a minus sign. -/
  negative : Bool
  /-- The digits in front of the point. -/
  whole : Nat := 0
  /-- The digits after the point, latest first. -/
  fraction : List Digit := []
  /-- Whether the exponent has a minus sign. -/
  exponentNegative : Bool := false
  /-- The digits of the exponent. -/
  exponent : Nat := 0

namespace NumberScan

/-- A number that starts with a digit or a minus sign. -/
def start? (b : UInt8) : Option NumberScan :=
  if b = byte '-' then some { phase := .sign, negative := true }
  else (digit? b).map fun (d : Digit) =>
    { phase := if d.val = 0 then .zero else .whole, negative := false, whole := d.val }

/-- The number with one more digit, where a digit may come. -/
def digit (s : NumberScan) (d : Digit) : Option NumberScan :=
  match s.phase with
  | .sign => some { s with phase := if d.val = 0 then .zero else .whole, whole := d.val }
  | .zero => none
  | .whole => some { s with whole := 10 * s.whole + d.val }
  | .point | .fraction => some { s with phase := .fraction, fraction := d :: s.fraction }
  | .mark | .markSign | .exponent =>
    some { s with phase := .exponent, exponent := 10 * s.exponent + d.val }

/-- The number with one more byte; none if the byte is no part of it. -/
def step (s : NumberScan) (b : UInt8) : Option NumberScan :=
  match digit? b with
  | some d => s.digit d
  | none =>
    match s.phase with
    | .zero | .whole =>
      if b = byte '.' then some { s with phase := .point }
      else if b = byte 'e' || b = byte 'E' then some { s with phase := .mark }
      else none
    | .fraction => if b = byte 'e' || b = byte 'E' then some { s with phase := .mark } else none
    | .mark =>
      if b = byte '+' then some { s with phase := .markSign }
      else if b = byte '-' then some { s with phase := .markSign, exponentNegative := true }
      else none
    | _ => none

/-- The number read, if it may end here. -/
def finish? (s : NumberScan) : Option Number :=
  match s.phase with
  | .zero | .whole | .fraction => some ⟨s.negative, s.whole, s.fraction.reverse, none⟩
  | .exponent =>
    some ⟨s.negative, s.whole, s.fraction.reverse,
      some (if s.exponentNegative then -(s.exponent : Int) else s.exponent)⟩
  | _ => none

end NumberScan

/-- Where in a token the scanner stands. -/
inductive ScanMode where
  /-- Between tokens. -/
  | gap
  /-- In a word with the given bytes left, which stands for a token. -/
  | word (rest : List UInt8) (token : Token)
  /-- In a string with the given parts, latest first. -/
  | string (parts : List StringPart)
  /-- After a backslash. -/
  | escape (parts : List StringPart)
  /-- In an escaped unit after `seen` digits. -/
  | unit (parts : List StringPart) (seen value : Nat)
  /-- In a number. -/
  | number (scan : NumberScan)

/-- The tokens so far, latest first, and the token under way. -/
structure Scanner where
  /-- The tokens that are complete. -/
  tokens : List Token
  /-- Where the scanner stands. -/
  mode : ScanMode

namespace Scanner

/-- The scanner in front of a document. -/
def start : Scanner := ⟨[], .gap⟩

/-- The scanner between tokens, with one more of them. -/
def emit (tokens : List Token) (token : Token) : Scanner := ⟨token :: tokens, .gap⟩

/-- A byte between tokens. -/
def gapStep (tokens : List Token) (b : UInt8) : Option Scanner :=
  match Char.ofUInt8 b with
  | ' ' | '\t' | '\n' | '\r' => some ⟨tokens, .gap⟩
  | '[' => some (emit tokens .beginArray)
  | ']' => some (emit tokens .endArray)
  | '{' => some (emit tokens .beginObject)
  | '}' => some (emit tokens .endObject)
  | ':' => some (emit tokens .colon)
  | ',' => some (emit tokens .comma)
  | '"' => some ⟨tokens, .string []⟩
  | 'n' => some ⟨tokens, .word (Json.word "ull") .null⟩
  | 't' => some ⟨tokens, .word (Json.word "rue") (.bool true)⟩
  | 'f' => some ⟨tokens, .word (Json.word "alse") (.bool false)⟩
  | _ => (NumberScan.start? b).map fun scan => ⟨tokens, .number scan⟩

/-- The byte that a short escape stands for. -/
def escaped? (b : UInt8) : Option UInt8 :=
  match Char.ofUInt8 b with
  | '"' | '\\' | '/' => some b
  | 'b' => some 0x08
  | 'f' => some 0x0C
  | 'n' => some 0x0A
  | 'r' => some 0x0D
  | 't' => some 0x09
  | _ => none

/-- One more byte. -/
def step (s : Scanner) (b : UInt8) : Option Scanner :=
  match s.mode with
  | .gap => gapStep s.tokens b
  | .word [] _ => none
  | .word [last] token => if b = last then some (emit s.tokens token) else none
  | .word (next :: rest) token => if b = next then some ⟨s.tokens, .word rest token⟩ else none
  | .string parts =>
    if b = byte '"' then some (emit s.tokens (.string parts.reverse))
    else if b = byte '\\' then some ⟨s.tokens, .escape parts⟩
    else if b < 0x20 then none
    else some ⟨s.tokens, .string (.byte b :: parts)⟩
  | .escape parts =>
    if b = byte 'u' then some ⟨s.tokens, .unit parts 0 0⟩
    else (escaped? b).map fun plain => ⟨s.tokens, .string (.byte plain :: parts)⟩
  | .unit parts seen value =>
    (hexDigit? b).map fun d =>
      let value := 16 * value + d
      if seen = 3 then ⟨s.tokens, .string (.codeUnit value.toUInt16 :: parts)⟩
      else ⟨s.tokens, .unit parts (seen + 1) value⟩
  | .number scan =>
    match scan.step b with
    | some scan => some ⟨s.tokens, .number scan⟩
    | none => scan.finish?.bind fun n => gapStep (.number n :: s.tokens) b

/-- The tokens of a document that ends here. -/
def finish? (s : Scanner) : Option (List Token) :=
  match s.mode with
  | .gap => some s.tokens.reverse
  | .number scan => scan.finish?.map fun n => (Token.number n :: s.tokens).reverse
  | _ => none

end Scanner

/-- The tokens of a document; none if some byte fits nowhere or a token is cut short. -/
def scan? (text : List UInt8) : Option (List Token) :=
  (text.foldlM Scanner.step Scanner.start).bind Scanner.finish?

end RoastTelemetry.Json
