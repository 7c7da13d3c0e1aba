import RoastTelemetry.Document.Sample
import RoastTelemetry.Proofs.Document.Floats
import Mathlib.Algebra.Group.Nat.Defs

/-!
# Gains are read as they were written

A gain is a word, and only its value is written. That loses nothing but NaNs, which are not written
at all: any other value has one word.
-/

namespace RoastTelemetry

open Json

namespace Binary

variable {f : Format}

/-- The sign and the other fields of a word make up the word. -/
theorem toNat_testBit_mul_add {bits width : Nat} (h : bits < 2 ^ (width + 1)) :
    (bits.testBit width).toNat * 2 ^ width + bits % 2 ^ width = bits := by
  rw [Nat.toNat_testBit, Nat.mul_comm, Nat.add_comm, ← Nat.mod_pow_succ, Nat.mod_eq_of_lt h]

/-- A word is that of its value, unless this is NaN. -/
theorem toBits_ofBits {bits : Nat} (hbits : bits < 2 ^ (f.codeBits + 1))
    (h : (ofBits bits : Binary f).isNaN = false) : (ofBits bits : Binary f).toBits = bits := by
  have hfields := toNat_testBit_mul_add hbits
  have hpow : Nat.pow 2 f.codeBits = 2 ^ f.codeBits := rfl
  unfold ofBits at h ⊢
  rw [hpow] at h ⊢
  dsimp only at h ⊢
  split at h
  · rename_i hfinite
    rw [dif_pos hfinite]
    exact hfields
  · rename_i hfinite
    split at h
    · rename_i hinfinite
      rw [dif_neg hfinite, if_pos hinfinite]
      rw [hinfinite] at hfields
      exact hfields
    · cases h

end Binary

namespace Gain

variable {g : Gain}

theorem ofValue_value (h : g.value.isNaN = false) : ofValue g.value = g := by
  have hbits : g.value.toBits = g.bits.toNat := Binary.toBits_ofBits g.bits.toNat_lt_size h
  unfold ofValue
  rw [hbits, UInt32.ofNat_toNat]

theorem ofValue_value_of_isFinite (h : g.value.isFinite = true) : ofValue g.value = g := by
  refine ofValue_value ?_
  cases hvalue : g.value with
  | nan =>
      rw [hvalue] at h
      cases h
  | infinity negative => rfl
  | finite negative code => rfl

/-- A gain is read back if its value is. -/
theorem ofJson?_toJson
    (h : Value.single g.value ≠ .null ∧ Value.single? (.single g.value) = some g.value) :
    g.toJson ≠ .null ∧ ofJson? g.toJson = some g := by
  obtain ⟨hne, hread⟩ := h
  have hfinite : g.value.isFinite = true := by
    by_contra hinfinite
    exact hne (Value.writesFinite_single.other g.value (eq_false_of_ne_true hinfinite))
  refine ⟨hne, ?_⟩
  unfold ofJson? toJson
  rw [hread, Option.map_some, ofValue_value_of_isFinite hfinite]

/-- A gain may come back as absent, as any value in single precision may. -/
theorem option?_toJson (h : g.value.isFinite = true → ReadsBack .single Value.single? g.value) :
    Value.option? ofJson? g.toJson = some (if g.value.isFinite = true then some g else none) := by
  by_cases hfinite : g.value.isFinite = true
  · rw [if_pos hfinite]
    obtain ⟨hne, hread⟩ := ofJson?_toJson ⟨Value.writesFinite_single.ne_null hfinite,
      Value.writesFinite_single.read_eq hfinite h⟩
    exact Value.option?_of_ne_null hne hread
  · have hnull : g.toJson = .null :=
      Value.writesFinite_single.other g.value (eq_false_of_ne_true hfinite)
    rw [if_neg hfinite, hnull]
    rfl

theorem filter_isFinite {x : Option Gain} :
    (x.filter fun g => g.value.isFinite) = x ↔ ∀ a ∈ x.map value, a.isFinite = true := by
  cases x with
  | none => simp
  | some g => simp [Option.filter]

end Gain

/-- A gain is read back, unless its value is not finite: then it is read as absent. -/
theorem Json.Record.nullable_gain {r : Record} {name : String} {x : Option Gain}
    (h : r.get? name = x.map Gain.toJson)
    (hx : ∀ a ∈ x.map Gain.value, a.isFinite = true → ReadsBack .single Value.single? a) :
    r.nullable name Gain.ofJson? = some (x.filter fun g => g.value.isFinite) := by
  rw [nullable_of_get? h fun g hg => Gain.option?_toJson (hx _ (Option.mem_map_of_mem _ hg))]
  cases x <;> rfl

end RoastTelemetry
