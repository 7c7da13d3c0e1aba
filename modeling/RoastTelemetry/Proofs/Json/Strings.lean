import RoastTelemetry.Json.Scanner
import Mathlib.Tactic.SplitIfs
import Mathlib.Tactic.Tauto

/-!
# Strings are read as they were written

Two readers stand behind a string. The scanner takes its bytes back to the parts they were written
from, for every part that has a written form of its own. The decoder takes the parts back to text:
a character is written in at most four bytes, and each of them leaves the decoder owing the rest.
-/

namespace RoastTelemetry.Json

namespace RawString

namespace Decoder

variable (chars : List Char)

theorem toNat_byte {n : Nat} (hn : n < 256) : (UInt8.ofNat n).toNat = n :=
  UInt8.toNat_ofNat_of_lt hn

theorem emit_toNat (c : Char) : emit chars c.toNat = some ⟨c :: chars, .nothing⟩ := by
  have hvalid : c.toNat.isValidChar := c.valid
  unfold emit scalar?
  rw [if_pos hvalid, Char.ofNat_toNat]
  rfl

/-- A byte that is a whole character. -/
theorem step_ascii {c : Char} (hc : c.toNat < 0x80) :
    step ⟨chars, .nothing⟩ (.byte (UInt8.ofNat c.toNat)) = some ⟨c :: chars, .nothing⟩ := by
  have hbyte : (UInt8.ofNat c.toNat).toNat = c.toNat := toNat_byte (by omega)
  unfold step leadByte
  dsimp only
  rw [hbyte, if_pos hc, emit_toNat]

/-- The first of two bytes. -/
theorem step_two {high : Nat} (hhigh : high < 0x20) :
    step ⟨chars, .nothing⟩ (.byte (UInt8.ofNat (high + 0xC0))) =
      some ⟨chars, .continuation 0 high 0x80⟩ := by
  have hbyte : (UInt8.ofNat (high + 0xC0)).toNat = high + 0xC0 := toNat_byte (by omega)
  unfold step leadByte
  dsimp only
  rw [hbyte, if_neg (by omega), if_neg (by omega), if_pos (by omega), Nat.add_sub_cancel]

/-- The first of three bytes. -/
theorem step_three {high : Nat} (hhigh : high < 0x10) :
    step ⟨chars, .nothing⟩ (.byte (UInt8.ofNat (high + 0xE0))) =
      some ⟨chars, .continuation 1 high 0x800⟩ := by
  have hbyte : (UInt8.ofNat (high + 0xE0)).toNat = high + 0xE0 := toNat_byte (by omega)
  unfold step leadByte
  dsimp only
  rw [hbyte, if_neg (by omega), if_neg (by omega), if_neg (by omega), if_pos (by omega),
    Nat.add_sub_cancel]

/-- The first of four bytes. -/
theorem step_four {high : Nat} (hhigh : high < 8) :
    step ⟨chars, .nothing⟩ (.byte (UInt8.ofNat (high + 0xF0))) =
      some ⟨chars, .continuation 2 high 0x10000⟩ := by
  have hbyte : (UInt8.ofNat (high + 0xF0)).toNat = high + 0xF0 := toNat_byte (by omega)
  unfold step leadByte
  dsimp only
  rw [hbyte, if_neg (by omega), if_neg (by omega), if_neg (by omega), if_neg (by omega),
    if_pos (by omega), Nat.add_sub_cancel]

/-- A byte of six bits that goes on with a character. -/
theorem step_continuation (more code least : Nat) {low : Nat} (hlow : low < 0x40) :
    step ⟨chars, .continuation more code least⟩ (.byte (UInt8.ofNat (low + 0x80))) =
      match more with
      | more + 1 => some ⟨chars, .continuation more (code * 0x40 + low) least⟩
      | 0 => if least ≤ code * 0x40 + low then emit chars (code * 0x40 + low) else none := by
  have hbyte : (UInt8.ofNat (low + 0x80)).toNat = low + 0x80 := toNat_byte (by omega)
  have hrange : (decide (0x80 ≤ low + 0x80) && decide (low + 0x80 < 0xC0)) = true := by
    simp only [Bool.and_eq_true, decide_eq_true_eq]
    omega
  cases more with
  | zero | succ more =>
      unfold step continuationByte
      dsimp only
      rw [hbyte, if_pos hrange, Nat.add_sub_cancel]

/-- The last byte of a character. -/
theorem step_last {c : Char} {code least low : Nat} (hlow : low < 0x40)
    (hcode : code * 0x40 + low = c.toNat) (hleast : least ≤ c.toNat) :
    step ⟨chars, .continuation 0 code least⟩ (.byte (UInt8.ofNat (low + 0x80))) =
      some ⟨c :: chars, .nothing⟩ := by
  rw [step_continuation chars 0 code least hlow, hcode]
  dsimp only
  rw [if_pos hleast, emit_toNat]

/-- The bytes of a character make up that character. -/
theorem foldlM_utf8 (c : Char) :
    ((String.utf8EncodeChar c).map StringPart.byte).foldlM step ⟨chars, .nothing⟩ =
      some ⟨c :: chars, .nothing⟩ := by
  have hmax : c.toNat < 0x110000 := by
    have hvalid : c.toNat.isValidChar := c.valid
    unfold Nat.isValidChar at hvalid
    omega
  have hvalue : c.val.toNat = c.toNat := rfl
  unfold String.utf8EncodeChar
  rw [hvalue]
  dsimp only
  by_cases h₁ : c.toNat ≤ 127
  · rw [if_pos h₁, List.map_singleton, List.foldlM_cons, step_ascii chars (by omega)]
    rfl
  by_cases h₂ : c.toNat ≤ 2047
  · rw [if_neg h₁, if_pos h₂, List.map_cons, List.map_singleton, List.foldlM_cons,
      step_two chars (by omega), Option.bind_eq_bind, Option.bind_some, List.foldlM_cons,
      step_last (c := c) chars (by omega) (by omega) (by omega)]
    rfl
  by_cases h₃ : c.toNat ≤ 65535
  · rw [if_neg h₁, if_neg h₂, if_pos h₃, List.map_cons, List.map_cons, List.map_singleton,
      List.foldlM_cons, step_three chars (by omega), Option.bind_eq_bind, Option.bind_some,
      List.foldlM_cons, step_continuation chars 1 _ _ (by omega), Option.bind_eq_bind,
      Option.bind_some, List.foldlM_cons, step_last (c := c) chars (by omega) (by omega) (by omega)]
    rfl
  · rw [if_neg h₁, if_neg h₂, if_neg h₃, List.map_cons, List.map_cons, List.map_cons,
      List.map_singleton, List.foldlM_cons, step_four chars (by omega), Option.bind_eq_bind,
      Option.bind_some, List.foldlM_cons, step_continuation chars 2 _ _ (by omega),
      Option.bind_eq_bind, Option.bind_some, List.foldlM_cons,
      step_continuation chars 1 _ _ (by omega), Option.bind_eq_bind, Option.bind_some,
      List.foldlM_cons, step_last (c := c) chars (by omega) (by omega) (by omega)]
    rfl

/-- A character that is escaped as a unit. -/
theorem step_codeUnit {c : Char} (hc : c.toNat < 0xD800) :
    step ⟨chars, .nothing⟩ (.codeUnit c.toNat.toUInt16) = some ⟨c :: chars, .nothing⟩ := by
  have hunit : c.toNat.toUInt16.toNat = c.toNat := UInt16.toNat_ofNat_of_lt (by
    have hsize : UInt16.size = 65536 := rfl
    omega)
  have hsurrogate : ¬ (decide (0xD800 ≤ c.toNat) && decide (c.toNat < 0xDC00)) = true := by
    simp only [Bool.and_eq_true, decide_eq_true_eq]
    omega
  unfold step
  dsimp only
  rw [hunit, if_neg hsurrogate, emit_toNat]

theorem foldlM_ofChar (c : Char) :
    (ofChar c).foldlM step ⟨chars, .nothing⟩ = some ⟨c :: chars, .nothing⟩ := by
  unfold ofChar
  split
  · rename_i hc
    have hlt : c.toNat < 0x20 := (Bool.and_eq_true_iff.mp hc).1 |> of_decide_eq_true
    rw [List.foldlM_cons, step_codeUnit chars (by omega)]
    rfl
  · exact foldlM_utf8 chars c

theorem foldlM_ofChars (text : List Char) :
    (text.flatMap ofChar).foldlM step ⟨chars, .nothing⟩ =
      some ⟨text.reverse ++ chars, .nothing⟩ := by
  induction text generalizing chars with
  | nil => rfl
  | cons c rest ih =>
      rw [List.flatMap_cons, List.foldlM_append, foldlM_ofChar, Option.bind_eq_bind,
        Option.bind_some, ih, List.reverse_cons, List.append_assoc]
      rfl

end Decoder

/-- **A text is read back from its written form.** -/
theorem decode?_ofString (s : String) : (ofString s).decode? = some s := by
  have hread := Decoder.foldlM_ofChars [] s.toList
  unfold decode? ofString Decoder.start
  rw [hread, Option.bind_some, List.append_nil]
  unfold Decoder.finish?
  dsimp only
  rw [List.reverse_reverse, String.ofList_toList]

end RawString

/-- Whether a part has a written form of its own; a control character has none as a byte, unless
there is a short escape for it. -/
def StringPart.isPlain : StringPart → Bool
  | .byte b => decide (0x20 ≤ b) || RawString.hasShortEscape (Char.ofUInt8 b)
  | .codeUnit _ => true

theorem StringPart.isPlain_byte {n : Nat} (hle : 0x20 ≤ n) (hlt : n < 256) :
    (StringPart.byte (UInt8.ofNat n)).isPlain = true := by
  have hbyte : (0x20 : UInt8) ≤ UInt8.ofNat n := by
    rw [UInt8.le_iff_toNat_le, RawString.Decoder.toNat_byte hlt]
    exact hle
  unfold isPlain
  dsimp only
  rw [decide_eq_true hbyte, Bool.true_or]

/-- Every part of a written text has a written form of its own. -/
theorem RawString.isPlain_of_mem_ofString {s : String} {part : StringPart}
    (h : part ∈ ofString s) : part.isPlain = true := by
  obtain ⟨c, -, hpart⟩ := List.mem_flatMap.mp h
  unfold ofChar at hpart
  split at hpart
  · obtain rfl := List.mem_singleton.mp hpart
    rfl
  rename_i hescape
  obtain ⟨b, hb, rfl⟩ := List.mem_map.mp hpart
  have hvalue : c.val.toNat = c.toNat := rfl
  unfold String.utf8EncodeChar at hb
  rw [hvalue] at hb
  dsimp only at hb
  by_cases hascii : c.toNat ≤ 127
  · rw [if_pos hascii, List.mem_singleton] at hb
    subst hb
    by_cases hcontrol : c.toNat < 0x20
    · -- the control characters that are not escaped as units
      have hshort : ∀ n < 0x20, ¬(decide (Char.ofNat n < ' ') && !hasShortEscape (Char.ofNat n)) →
          (StringPart.byte (UInt8.ofNat n)).isPlain = true := by decide
      have hc := hshort c.toNat hcontrol
      rw [Char.ofNat_toNat] at hc
      exact hc hescape
    · exact StringPart.isPlain_byte (by omega) (by omega)
  · rw [if_neg hascii] at hb
    split at hb
    · simp only [List.mem_cons, List.not_mem_nil, or_false] at hb
      rcases hb with rfl | rfl <;> exact StringPart.isPlain_byte (by omega) (by omega)
    split at hb
    · simp only [List.mem_cons, List.not_mem_nil, or_false] at hb
      rcases hb with rfl | rfl | rfl <;> exact StringPart.isPlain_byte (by omega) (by omega)
    · simp only [List.mem_cons, List.not_mem_nil, or_false] at hb
      rcases hb with rfl | rfl | rfl | rfl <;> exact StringPart.isPlain_byte (by omega) (by omega)

namespace Scanner

theorem hexDigit?_hexByte {n : Nat} (hn : n < 16) : hexDigit? (hexByte n) = some n := by
  have hall : ∀ n, n < 16 → hexDigit? (hexByte n) = some n := by decide
  exact hall n hn

/-- Four hexadecimal digits are read as the unit they were written from. -/
theorem foldlM_unitBytes (tokens : List Token) (parts : List StringPart) (u : UInt16) :
    (unitBytes u.toNat).foldlM step ⟨tokens, .string parts⟩ =
      some ⟨tokens, .string (.codeUnit u :: parts)⟩ := by
  have hdigit (seen value : Nat) {n : Nat} (hn : n < 16) :
      step ⟨tokens, .unit parts seen value⟩ (hexByte n) =
        some (if seen = 3 then
          ⟨tokens, .string (.codeUnit (16 * value + n).toUInt16 :: parts)⟩
        else ⟨tokens, .unit parts (seen + 1) (16 * value + n)⟩) := by
    unfold step
    dsimp only
    rw [hexDigit?_hexByte hn, Option.map_some]
  have hlt : u.toNat < 65536 := u.toNat_lt
  have hvalue : 16 * (16 * (16 * (16 * 0 + u.toNat / 4096 % 16) + u.toNat / 256 % 16) +
      u.toNat / 16 % 16) + u.toNat % 16 = u.toNat := by omega
  have hopen : (word "\\u").foldlM step ⟨tokens, .string parts⟩ =
      some ⟨tokens, .unit parts 0 0⟩ := rfl
  unfold unitBytes
  rw [List.foldlM_append, hopen, Option.bind_eq_bind, Option.bind_some]
  rw [List.foldlM_cons, hdigit 0 0 (by omega), if_neg (by decide), Option.bind_eq_bind,
    Option.bind_some, List.foldlM_cons, hdigit 1 _ (by omega), if_neg (by decide),
    Option.bind_eq_bind, Option.bind_some, List.foldlM_cons, hdigit 2 _ (by omega),
    if_neg (by decide), Option.bind_eq_bind, Option.bind_some, List.foldlM_cons,
    hdigit 3 _ (by omega), if_pos rfl, hvalue, Nat.toUInt16_eq, UInt16.ofNat_toNat]
  rfl

theorem foldlM_stringByte (tokens : List Token) (parts : List StringPart) {b : UInt8}
    (hb : (StringPart.byte b).isPlain = true) :
    (stringByte b).foldlM step ⟨tokens, .string parts⟩ =
      some ⟨tokens, .string (.byte b :: parts)⟩ := by
  unfold stringByte
  split_ifs with h₁ h₂ h₃ h₄ h₅ h₆ h₇ h₈
  · subst h₁
    rfl
  · subst h₂
    rfl
  · subst h₃
    rfl
  · subst h₄
    rfl
  · subst h₅
    rfl
  · subst h₆
    rfl
  · subst h₇
    rfl
  · -- a control character without a short escape
    have hshort : ∀ n < 0x20, (StringPart.byte (UInt8.ofNat n)).isPlain = true →
        UInt8.ofNat n ∈ [0x08, 0x09, 0x0A, 0x0C, 0x0D] := by decide
    have hmem := hshort b.toNat h₈
    rw [UInt8.ofNat_toNat] at hmem
    have hescape := hmem hb
    simp only [List.mem_cons, List.not_mem_nil, or_false] at hescape
    tauto
  · rw [List.foldlM_cons]
    unfold step
    dsimp only
    rw [if_neg h₁, if_neg h₂, if_neg h₈]
    rfl

end Scanner

end RoastTelemetry.Json
