import RoastTelemetry.Json.Scanner
import Mathlib.Tactic.SplitIfs

/-!
# Numbers are scanned as they were written

The digits of a number arrive with the leading one first, so a machine that has read those of
`n / 10` takes one more digit and has read those of `n`. That one argument serves the digits in
front of the point, whether a minus sign came before them or not, and the digits of the exponent.
What the scanner then holds is the number itself: nothing of its spelling is lost.
-/

namespace RoastTelemetry

namespace Digit

theorem ofNatBefore_eq (n : Nat) (low : List Digit) : ofNatBefore n low = ofNat n ++ low := by
  induction n using Nat.strongRecOn generalizing low with
  | ind n ih =>
      have hofNat : ofNat n = ofNatBefore n [] := rfl
      rw [hofNat, ofNatBefore.eq_def n low, ofNatBefore.eq_def n []]
      by_cases h : n < 10
      · rw [if_pos h, if_pos h]
        rfl
      · rw [if_neg h, if_neg h, ih (n / 10) (by omega), ih (n / 10) (by omega), List.append_assoc]
        rfl

theorem ofNat_of_lt {n : Nat} (h : n < 10) : ofNat n = [Fin.ofNat 10 n] := by
  unfold ofNat
  rw [ofNatBefore, if_pos h]

theorem ofNat_of_le {n : Nat} (h : 10 ≤ n) : ofNat n = ofNat (n / 10) ++ [Fin.ofNat 10 n] := by
  have hofNat : ofNat n = ofNatBefore n [] := rfl
  rw [hofNat, ofNatBefore, if_neg (by omega), ofNatBefore_eq]

end Digit

namespace Json

/-- A machine that reads the digits of a number from the leading one on has read the number. -/
theorem foldlM_natBytes {σ : Type} {step : σ → UInt8 → Option σ} {start : σ} (after : Nat → σ)
    (hfirst : ∀ n, n < 10 → step start (digitByte (Fin.ofNat 10 n)) = some (after n))
    (hnext : ∀ n, 10 ≤ n → step (after (n / 10)) (digitByte (Fin.ofNat 10 n)) = some (after n))
    (n : Nat) : (natBytes n).foldlM step start = some (after n) := by
  unfold natBytes
  induction n using Nat.strongRecOn with
  | ind n ih =>
      rcases Nat.lt_or_ge n 10 with hlt | hge
      · rw [Digit.ofNat_of_lt hlt, List.map_singleton, List.foldlM_cons, hfirst n hlt]
        rfl
      · rw [Digit.ofNat_of_le hge, List.map_append, List.foldlM_append, ih (n / 10) (by omega),
          List.map_singleton, Option.bind_eq_bind, Option.bind_some, List.foldlM_cons, hnext n hge]
        rfl

theorem digit?_digitByte : ∀ d : Digit, digit? (digitByte d) = some d := by decide

namespace NumberScan

theorem step_digitByte (s : NumberScan) (d : Digit) : s.step (digitByte d) = s.digit d := by
  unfold step
  rw [digit?_digitByte]

/-- The digits in front of the point have been read. -/
def afterWhole (negative : Bool) (n : Nat) : NumberScan :=
  { phase := if n = 0 then .zero else .whole, negative, whole := n }

/-- The digits after the point have been read, if there are any. -/
def afterFraction (negative : Bool) (n : Nat) (fraction : List Digit) : NumberScan :=
  if fraction = [] then afterWhole negative n
  else { afterWhole negative n with phase := .fraction, fraction := fraction.reverse }

/-- All of a number has been read. -/
def after (n : Number) : NumberScan :=
  match n.exponent with
  | none => afterFraction n.negative n.whole n.fraction
  | some e =>
    { afterFraction n.negative n.whole n.fraction with
      phase := .exponent, exponentNegative := decide (e < 0), exponent := e.natAbs }

theorem step_afterWhole (negative : Bool) {n : Nat} (h : 10 ≤ n) :
    (afterWhole negative (n / 10)).step (digitByte (Fin.ofNat 10 n)) =
      some (afterWhole negative n) := by
  have hhigh : n / 10 ≠ 0 := by omega
  have hvalue : 10 * (n / 10) + n % 10 = n := by omega
  rw [step_digitByte]
  unfold afterWhole digit
  rw [if_neg hhigh, if_neg (by omega : n ≠ 0), Fin.val_ofNat]
  dsimp only
  rw [hvalue]

theorem foldlM_sign (n : Nat) :
    (natBytes n).foldlM step { phase := .sign, negative := true } = some (afterWhole true n) := by
  refine foldlM_natBytes (afterWhole true) ?_ (fun m hm => step_afterWhole true hm) n
  intro m hm
  rw [step_digitByte]
  unfold digit afterWhole
  rw [Fin.val_ofNat, Nat.mod_eq_of_lt hm]

theorem foldlM_digits {s : NumberScan} (hs : s.phase = .fraction) (ds : List Digit) :
    (ds.map digitByte).foldlM step s = some { s with fraction := ds.reverse ++ s.fraction } := by
  induction ds generalizing s with
  | nil => rfl
  | cons d rest ih =>
      have hdigit : s.digit d =
          some { s with phase := .fraction, fraction := d :: s.fraction } := by
        unfold digit
        rw [hs]
      rw [List.map_cons, List.foldlM_cons, step_digitByte, hdigit, Option.bind_eq_bind,
        Option.bind_some, ih rfl, List.reverse_cons, List.append_assoc, ← hs]
      rfl

theorem afterWhole_phase (negative : Bool) (n : Nat) :
    (afterWhole negative n).phase = .zero ∨ (afterWhole negative n).phase = .whole := by
  unfold afterWhole
  split
  · exact .inl rfl
  · exact .inr rfl

theorem afterFraction_phase (negative : Bool) (n : Nat) (fraction : List Digit) :
    (afterFraction negative n fraction).phase = .zero ∨
      (afterFraction negative n fraction).phase = .whole ∨
      (afterFraction negative n fraction).phase = .fraction := by
  unfold afterFraction
  split
  · exact (afterWhole_phase negative n).imp id .inl
  · exact .inr (.inr rfl)

theorem step_point {s : NumberScan} (hs : s.phase = .zero ∨ s.phase = .whole) :
    s.step (byte '.') = some { s with phase := .point } := by
  have hdigit : digit? (byte '.') = none := by decide
  unfold step
  rw [hdigit]
  rcases hs with h | h <;> rw [h] <;> rfl

theorem step_mark {s : NumberScan}
    (hs : s.phase = .zero ∨ s.phase = .whole ∨ s.phase = .fraction) :
    s.step (byte 'e') = some { s with phase := .mark } := by
  have hdigit : digit? (byte 'e') = none := by decide
  unfold step
  rw [hdigit]
  rcases hs with h | h | h <;> rw [h] <;> rfl

theorem foldlM_fraction (negative : Bool) (n : Nat) (fraction : List Digit) :
    (if fraction.isEmpty then [] else byte '.' :: fraction.map digitByte).foldlM step
        (afterWhole negative n) = some (afterFraction negative n fraction) := by
  cases fraction with
  | nil => rfl
  | cons d rest =>
      have hempty : (d :: rest).isEmpty = false := rfl
      unfold afterFraction
      rw [hempty, if_neg Bool.false_ne_true, if_neg (List.cons_ne_nil d rest), List.foldlM_cons,
        step_point (afterWhole_phase negative n), Option.bind_eq_bind, Option.bind_some,
        List.map_cons, List.foldlM_cons, step_digitByte, Option.bind_eq_bind]
      -- the first digit after the point
      have hdigit : ({ afterWhole negative n with phase := .point } : NumberScan).digit d =
          some { afterWhole negative n with phase := .fraction, fraction := [d] } := rfl
      rw [hdigit, Option.bind_some, foldlM_digits rfl, List.reverse_cons]

/-- The sign that is written in front of an exponent. -/
theorem foldlM_mark {s : NumberScan}
    (hs : s.phase = .zero ∨ s.phase = .whole ∨ s.phase = .fraction)
    (hsign : s.exponentNegative = false) (e : Int) :
    (word (if e < 0 then "e-" else "e+")).foldlM step s =
      some { s with phase := .markSign, exponentNegative := decide (e < 0) } := by
  have hminus : word "e-" = [byte 'e', byte '-'] := rfl
  have hplus : word "e+" = [byte 'e', byte '+'] := rfl
  by_cases he : e < 0
  · rw [if_pos he, decide_eq_true he, hminus, List.foldlM_cons, step_mark hs]
    rfl
  · rw [if_neg he, decide_eq_false he, hplus, List.foldlM_cons, step_mark hs, ← hsign]
    rfl

theorem foldlM_exponent (s : NumberScan) (hs : s.phase = .markSign) (hzero : s.exponent = 0)
    (n : Nat) :
    (natBytes n).foldlM step s = some { s with phase := .exponent, exponent := n } := by
  refine foldlM_natBytes (fun m => { s with phase := .exponent, exponent := m }) ?_ ?_ n
  · intro m hm
    rw [step_digitByte]
    unfold digit
    rw [hs, hzero, Fin.val_ofNat, Nat.mod_eq_of_lt hm, Nat.mul_zero, Nat.zero_add]
  · intro m hm
    have hvalue : 10 * (m / 10) + m % 10 = m := by omega
    rw [step_digitByte]
    unfold digit
    rw [Fin.val_ofNat]
    dsimp only
    rw [hvalue]

theorem exponent_afterFraction (negative : Bool) (n : Nat) (fraction : List Digit) :
    (afterFraction negative n fraction).exponentNegative = false ∧
      (afterFraction negative n fraction).exponent = 0 := by
  unfold afterFraction
  split <;> exact ⟨rfl, rfl⟩

/-- The bytes of a number behind those in front of the point. -/
theorem foldlM_rest (n : Number) :
    ((if n.fraction.isEmpty then [] else byte '.' :: n.fraction.map digitByte) ++
        match n.exponent with
        | none => []
        | some e => word (if e < 0 then "e-" else "e+") ++ natBytes e.natAbs).foldlM step
      (afterWhole n.negative n.whole) = some (after n) := by
  rw [List.foldlM_append, foldlM_fraction, Option.bind_eq_bind, Option.bind_some]
  unfold after
  cases n.exponent with
  | none => rfl
  | some e =>
      obtain ⟨hsign, hzero⟩ := exponent_afterFraction n.negative n.whole n.fraction
      dsimp only
      rw [List.foldlM_append, foldlM_mark (afterFraction_phase _ _ _) hsign, Option.bind_eq_bind,
        Option.bind_some]
      exact foldlM_exponent { afterFraction n.negative n.whole n.fraction with
        phase := .markSign, exponentNegative := decide (e < 0) } rfl hzero e.natAbs

/-- **What has been read of a number is the number.** -/
theorem finish?_after (n : Number) : (after n).finish? = some n := by
  obtain ⟨negative, whole, fraction, exponent⟩ := n
  unfold after afterFraction afterWhole finish?
  cases exponent with
  | none =>
      by_cases hfraction : fraction = []
      · by_cases hwhole : whole = 0 <;> simp [hfraction, hwhole]
      · simp [hfraction]
  | some e =>
      have he : (if decide (e < 0) = true then -(e.natAbs : Int) else e.natAbs) = e := by
        simp only [decide_eq_true_eq]
        split <;> omega
      by_cases hfraction : fraction = []
      · dsimp only
        rw [if_pos hfraction, he, hfraction]
        rfl
      · dsimp only
        rw [if_neg hfraction, he, List.reverse_reverse]

/-- A number that may end here ends at any byte that cannot go on with it. -/
theorem step_eq_none {s : NumberScan} {n : Number} (h : s.finish? = some n) {b : UInt8}
    (hdigit : digit? b = none) (hpoint : b ≠ byte '.') (he : b ≠ byte 'e') (hE : b ≠ byte 'E') :
    s.step b = none := by
  unfold finish? at h
  unfold step
  rw [hdigit]
  cases hphase : s.phase with
  | zero => simp [hpoint, he, hE]
  | whole => simp [hpoint, he, hE]
  | fraction => simp [he, hE]
  | exponent => rfl
  | sign => simp [hphase] at h
  | point => simp [hphase] at h
  | mark => simp [hphase] at h
  | markSign => simp [hphase] at h

end NumberScan

namespace Scanner

/-- Inside a number the scanner goes on with the number. -/
theorem foldlM_number {bytes : List UInt8} {scan scan' : NumberScan}
    (h : bytes.foldlM NumberScan.step scan = some scan') (tokens : List Token) :
    bytes.foldlM step ⟨tokens, .number scan⟩ = some ⟨tokens, .number scan'⟩ := by
  induction bytes generalizing scan with
  | nil =>
      obtain rfl := Option.some.inj h
      rfl
  | cons b rest ih =>
      rw [List.foldlM_cons, Option.bind_eq_bind] at h
      obtain ⟨next, hnext, hrest⟩ := Option.bind_eq_some_iff.mp h
      have hstep : step ⟨tokens, .number scan⟩ b = some ⟨tokens, .number next⟩ := by
        unfold step
        dsimp only
        rw [hnext]
      rw [List.foldlM_cons, hstep, Option.bind_eq_bind, Option.bind_some]
      exact ih hrest

/-- What starts a token between tokens, other than a number. -/
def openers : List Char :=
  [' ', '\t', '\n', '\r', '[', ']', '\x7b', '\x7d', ':', ',', '"', 'n', 't', 'f']

theorem gapStep_of_not_mem {b : UInt8} (h : Char.ofUInt8 b ∉ openers) (tokens : List Token) :
    gapStep tokens b = (NumberScan.start? b).map fun scan => ⟨tokens, .number scan⟩ := by
  simp only [openers, List.mem_cons, List.not_mem_nil, or_false, not_or] at h
  unfold gapStep
  split
  all_goals first | rfl | simp_all only [not_true_eq_false, false_and, and_false]

theorem gapStep_digitByte (tokens : List Token) (d : Digit) :
    gapStep tokens (digitByte d) =
      some ⟨tokens, .number (NumberScan.afterWhole false d.val)⟩ := by
  have hopeners : ∀ d : Digit, Char.ofUInt8 (digitByte d) ∉ openers := by decide
  have hminus : ∀ d : Digit, digitByte d ≠ byte '-' := by decide
  rw [gapStep_of_not_mem (hopeners d)]
  unfold NumberScan.start?
  rw [if_neg (hminus d), digit?_digitByte]
  rfl

theorem foldlM_whole (n : Nat) (tokens : List Token) :
    (natBytes n).foldlM step ⟨tokens, .gap⟩ =
      some ⟨tokens, .number (NumberScan.afterWhole false n)⟩ := by
  refine foldlM_natBytes
    (fun m => (⟨tokens, .number (NumberScan.afterWhole false m)⟩ : Scanner)) ?_ ?_ n
  · intro m hm
    have hgap := gapStep_digitByte tokens (Fin.ofNat 10 m)
    rwa [Fin.val_ofNat, Nat.mod_eq_of_lt hm] at hgap
  · intro m hm
    unfold step
    dsimp only
    rw [NumberScan.step_afterWhole false hm]

/-- **The bytes of a number are scanned as that number**, which is still open behind them. -/
theorem foldlM_numberBytes (n : Number) (tokens : List Token) :
    n.bytes.foldlM step ⟨tokens, .gap⟩ = some ⟨tokens, .number (NumberScan.after n)⟩ := by
  have hwhole : ((if n.negative then word "-" else []) ++ natBytes n.whole).foldlM step
      ⟨tokens, .gap⟩ = some ⟨tokens, .number (NumberScan.afterWhole n.negative n.whole)⟩ := by
    cases n.negative with
    | false => exact foldlM_whole n.whole tokens
    | true =>
        rw [if_pos rfl, List.foldlM_append]
        exact foldlM_number (NumberScan.foldlM_sign n.whole) tokens
  unfold Number.bytes
  rw [List.append_assoc, List.foldlM_append, hwhole, Option.bind_eq_bind, Option.bind_some]
  exact foldlM_number (NumberScan.foldlM_rest n) tokens

end Scanner

end Json

end RoastTelemetry
