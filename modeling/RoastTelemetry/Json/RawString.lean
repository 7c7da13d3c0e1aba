/-!
# Strings as they are written

A string in a document is kept as its parts: raw bytes, and the sixteen-bit units spelled out by
`\u` escapes. Whether the parts make text is a second question, asked by `RawString.decode?`:
bytes must be UTF-8 and surrogate units must come in pairs. A document may be well formed and
hold strings that are no text. Where nobody reads such a string it does no harm; but the keys of an
object are read to find its fields, so an object with a key that is no text is no record.
-/

namespace RoastTelemetry.Json

/-- One part of a written string. -/
inductive StringPart where
  /-- A byte, written as itself or by a short escape. -/
  | byte (b : UInt8)
  /-- A unit written as four hexadecimal digits. -/
  | codeUnit (u : UInt16)
deriving DecidableEq

/-- A string as its parts in order. -/
abbrev RawString := List StringPart

namespace RawString

/-- The character of a code point, if it is one. -/
def scalar? (code : Nat) : Option Char :=
  if code.isValidChar then some (Char.ofNat code) else none

/-- What the parts read so far still owe. -/
inductive Pending where
  /-- Nothing: the parts so far are whole characters. -/
  | nothing
  /-- One continuation byte and `more` after it, for a code point of at least `least`. -/
  | continuation (more code least : Nat)
  /-- The low surrogate of a pair. -/
  | lowSurrogate (high : Nat)

/-- The characters so far, latest first, and what is owed. -/
structure Decoder where
  /-- The characters that are complete. -/
  chars : List Char
  /-- What is owed. -/
  pending : Pending

namespace Decoder

/-- The decoder in front of a string. -/
def start : Decoder := ⟨[], .nothing⟩

/-- The decoder after one more character, if the code point is one. -/
def emit (chars : List Char) (code : Nat) : Option Decoder :=
  (scalar? code).map fun c => ⟨c :: chars, .nothing⟩

/-- The first byte of a character. -/
def leadByte (chars : List Char) (b : Nat) : Option Decoder :=
  if b < 0x80 then emit chars b
  else if b < 0xC0 then none
  else if b < 0xE0 then some ⟨chars, .continuation 0 (b - 0xC0) 0x80⟩
  else if b < 0xF0 then some ⟨chars, .continuation 1 (b - 0xE0) 0x800⟩
  else if b < 0xF8 then some ⟨chars, .continuation 2 (b - 0xF0) 0x10000⟩
  else none

/-- A further byte of a character; the last one completes it, unless it was written too long. -/
def continuationByte (chars : List Char) (more code least b : Nat) : Option Decoder :=
  if 0x80 ≤ b && b < 0xC0 then
    let code := code * 0x40 + (b - 0x80)
    match more with
    | more + 1 => some ⟨chars, .continuation more code least⟩
    | 0 => if least ≤ code then emit chars code else none
  else none

/-- One more part. -/
def step (d : Decoder) (part : StringPart) : Option Decoder :=
  match d.pending, part with
  | .nothing, .byte b => leadByte d.chars b.toNat
  | .continuation more code least, .byte b => continuationByte d.chars more code least b.toNat
  | .nothing, .codeUnit u =>
    if 0xD800 ≤ u.toNat && u.toNat < 0xDC00 then some ⟨d.chars, .lowSurrogate u.toNat⟩
    else emit d.chars u.toNat
  | .lowSurrogate high, .codeUnit u =>
    if 0xDC00 ≤ u.toNat && u.toNat < 0xE000 then
      emit d.chars (0x10000 + (high - 0xD800) * 0x400 + (u.toNat - 0xDC00))
    else none
  | _, _ => none

/-- The text of a string that ends here; nothing may be owed. -/
def finish? : Decoder → Option String
  | ⟨chars, .nothing⟩ => some (String.ofList chars.reverse)
  | _ => none

end Decoder

/-- The text that a written string spells, if it is text. -/
def decode? (s : RawString) : Option String :=
  (s.foldlM Decoder.step Decoder.start).bind Decoder.finish?

/-- Control characters that have a short escape. -/
def hasShortEscape (c : Char) : Bool := c matches '\x08' | '\t' | '\n' | '\x0c' | '\r'

/-- The parts in which one character is written. -/
def ofChar (c : Char) : RawString :=
  if c < ' ' && !hasShortEscape c then [.codeUnit c.toNat.toUInt16]
  else (String.utf8EncodeChar c).map .byte

/-- A text as a written string. -/
def ofString (s : String) : RawString := s.toList.flatMap ofChar

end RawString

end RoastTelemetry.Json
