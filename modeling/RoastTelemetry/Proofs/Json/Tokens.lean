import RoastTelemetry.Proofs.Json.Numbers
import RoastTelemetry.Proofs.Json.Strings
import Mathlib.Data.List.Chain

/-!
# Tokens are scanned as they were written

A number has no closing mark, so behind its last byte the scanner still has it open, and the first
byte of the next token closes it. Every token but a number can follow a number in this way. A text
whose tokens never put one number right behind another is therefore scanned to the tokens it was
written from.
-/

namespace RoastTelemetry.Json

namespace Token

/-- Whether a token is a number. -/
def isNumber : Token → Bool
  | .number _ => true
  | _ => false

/-- A token whose strings have only parts with a written form of their own. -/
def Plain : Token → Prop
  | .string s => ∀ part ∈ s, part.isPlain = true
  | _ => True

/-- Two tokens that keep apart without a blank between them. -/
def Apart (a b : Token) : Prop := ¬(a.isNumber = true ∧ b.isNumber = true)

end Token

namespace Scanner

/-- The scanner behind the bytes of some tokens, latest first; a number is still open. -/
def behind : List Token → Scanner
  | .number n :: tokens => ⟨tokens, .number (NumberScan.after n)⟩
  | tokens => ⟨tokens, .gap⟩

theorem finish?_behind (seen : List Token) : (behind seen).finish? = some seen.reverse := by
  unfold behind
  split
  · rename_i n tokens
    have hdone : (NumberScan.after n).finish? = some n := NumberScan.finish?_after n
    unfold finish?
    dsimp only
    rw [hdone, Option.map_some]
  · rfl

/-- A token that starts with a byte that no number goes on with is scanned behind any tokens as it
is scanned between tokens. -/
theorem foldlM_behind {b : UInt8}
    (hb : digit? b = none ∧ b ≠ byte '.' ∧ b ≠ byte 'e' ∧ b ≠ byte 'E')
    (rest : List UInt8) (seen : List Token) :
    (b :: rest).foldlM step (behind seen) = (b :: rest).foldlM step ⟨seen, .gap⟩ := by
  have hstep : step (behind seen) b = gapStep seen b := by
    unfold behind
    split
    · rename_i n tokens
      obtain ⟨hdigit, hpoint, he, hE⟩ := hb
      have hdone : (NumberScan.after n).finish? = some n := NumberScan.finish?_after n
      have hends : (NumberScan.after n).step b = none :=
        NumberScan.step_eq_none hdone hdigit hpoint he hE
      unfold step
      dsimp only
      rw [hends, hdone, Option.bind_some]
    · rfl
  rw [List.foldlM_cons, List.foldlM_cons, hstep]
  rfl

theorem behind_of_not_isNumber {t : Token} (ht : t.isNumber = false) (seen : List Token) :
    behind (t :: seen) = ⟨t :: seen, .gap⟩ := by
  cases t <;> first | rfl | cases ht

theorem foldlM_stringParts (tokens : List Token) (parts : List StringPart) {s : RawString}
    (hs : ∀ part ∈ s, part.isPlain = true) :
    (s.flatMap StringPart.bytes).foldlM step ⟨tokens, .string parts⟩ =
      some ⟨tokens, .string (s.reverse ++ parts)⟩ := by
  induction s generalizing parts with
  | nil => rfl
  | cons part rest ih =>
      obtain ⟨hpart, hrest⟩ := List.forall_mem_cons.mp hs
      have hfirst : part.bytes.foldlM step ⟨tokens, .string parts⟩ =
          some ⟨tokens, .string (part :: parts)⟩ := by
        cases part with
        | byte b => exact foldlM_stringByte tokens parts hpart
        | codeUnit u => exact foldlM_unitBytes tokens parts u
      rw [List.flatMap_cons, List.foldlM_append, hfirst, Option.bind_eq_bind, Option.bind_some,
        ih _ hrest, List.reverse_cons, List.append_assoc]
      rfl

/-- A string is scanned up to its closing mark. -/
theorem foldlM_string (tokens : List Token) {s : RawString}
    (hs : ∀ part ∈ s, part.isPlain = true) :
    (s.flatMap StringPart.bytes ++ [byte '"']).foldlM step ⟨tokens, .string []⟩ =
      some ⟨.string s :: tokens, .gap⟩ := by
  rw [List.foldlM_append, foldlM_stringParts tokens [] hs, Option.bind_eq_bind, Option.bind_some,
    List.append_nil, List.foldlM_cons]
  have hclose : step ⟨tokens, .string s.reverse⟩ (byte '"') =
      some ⟨.string s :: tokens, .gap⟩ := by
    unfold step emit
    dsimp only
    rw [if_pos rfl, List.reverse_reverse]
  rw [hclose]
  rfl

/-- Behind any tokens, the bytes of a token that keeps apart from the last one are scanned. -/
theorem foldlM_tokenBytes {t : Token} (ht : t.Plain) {seen : List Token}
    (happart : ∀ last ∈ seen.head?, last.Apart t) :
    t.bytes.foldlM step (behind seen) = some (behind (t :: seen)) := by
  cases t with
  | number n =>
      have hgap : behind seen = ⟨seen, .gap⟩ := by
        cases seen with
        | nil => rfl
        | cons last rest =>
            refine behind_of_not_isNumber ?_ rest
            have h := happart last rfl
            unfold Token.Apart at h
            simpa [Token.isNumber] using h
      rw [hgap]
      exact foldlM_numberBytes n seen
  | string s =>
      have hbytes : (Token.string s).bytes =
          byte '"' :: (s.flatMap StringPart.bytes ++ [byte '"']) := rfl
      rw [hbytes, foldlM_behind (by decide), List.foldlM_cons]
      exact foldlM_string seen ht
  | bool b => cases b <;> exact foldlM_behind (by decide) _ seen
  | beginArray | endArray | beginObject | endObject | colon | comma | null =>
      exact foldlM_behind (by decide) _ seen

/-- Behind any tokens, the bytes of further tokens are scanned, if each keeps apart from the one
before it. -/
theorem foldlM_tokens {tokens : List Token} (hplain : ∀ t ∈ tokens, t.Plain)
    (hapart : tokens.IsChain Token.Apart) {seen : List Token}
    (hseen : ∀ last ∈ seen.head?, ∀ next ∈ tokens.head?, last.Apart next) :
    (tokens.flatMap Token.bytes).foldlM step (behind seen) =
      some (behind (tokens.reverse ++ seen)) := by
  induction tokens generalizing seen with
  | nil => rfl
  | cons t rest ih =>
      obtain ⟨ht, hrest⟩ := List.forall_mem_cons.mp hplain
      obtain ⟨hnext, hchain⟩ := List.isChain_cons.mp hapart
      have hfirst : t.bytes.foldlM step (behind seen) = some (behind (t :: seen)) :=
        foldlM_tokenBytes ht fun last hlast => hseen last hlast t rfl
      rw [List.flatMap_cons, List.foldlM_append, hfirst, Option.bind_eq_bind, Option.bind_some,
        List.reverse_cons, List.append_assoc]
      refine ih hrest hchain ?_
      intro last hlast
      obtain rfl := Option.some.inj hlast
      exact hnext

end Scanner

/-- **Tokens that keep apart are scanned from their bytes.** -/
theorem scan?_bytes {tokens : List Token} (hplain : ∀ t ∈ tokens, t.Plain)
    (hapart : tokens.IsChain Token.Apart) :
    scan? (tokens.flatMap Token.bytes) = some tokens := by
  have hread : (tokens.flatMap Token.bytes).foldlM Scanner.step (Scanner.behind []) =
      some (Scanner.behind (tokens.reverse ++ [])) :=
    Scanner.foldlM_tokens hplain hapart (by simp)
  have hstart : Scanner.start = Scanner.behind [] := rfl
  unfold scan?
  rw [hstart, hread, Option.bind_some, Scanner.finish?_behind, List.append_nil,
    List.reverse_reverse]

end RoastTelemetry.Json
