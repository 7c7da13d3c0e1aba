import RoastTelemetry.Proofs.Delta.Drift

/-!
# A decoder that is some steps off

What the invariant of the delta chain forbids can still be followed through a chain. If the
decoder's reference counts one step more than its source, or one less, then it adds the right
differences to it, and every reading comes out one step off. Nothing in the chain removes the
slip, and nothing makes it larger. A gap in the channel ends it, because the reading after a gap
is stored whole.
-/

namespace RoastTelemetry.Codec

variable {c : Codec}

/-! ## Readings close to their sources -/

/-- Every reading that is present decodes to a value close to it. -/
def AllWithin (c : Codec) (xs zs : List (Option Single)) : Prop :=
  ∀ (i : Nat) (x : Single), xs[i]? = some (some x) → ∃ z, zs[i]? = some (some z) ∧ c.Within x z

theorem allWithin_cons_none {z : Option Single} {xs zs : List (Option Single)} :
    c.AllWithin (none :: xs) (z :: zs) ↔ c.AllWithin xs zs := by
  constructor
  · intro h i x hx
    obtain ⟨w, hw, hwithin⟩ := h (i + 1) x hx
    exact ⟨w, hw, hwithin⟩
  · intro h i x hx
    cases i with
    | zero => simp at hx
    | succ i => exact h i x hx

theorem allWithin_cons_some {x z : Single} {xs zs : List (Option Single)} :
    c.AllWithin (some x :: xs) (some z :: zs) ↔ c.Within x z ∧ c.AllWithin xs zs := by
  constructor
  · intro h
    refine ⟨?_, fun i y hy => h (i + 1) y hy⟩
    obtain ⟨w, hw, hwithin⟩ := h 0 x rfl
    rw [List.getElem?_cons_zero, Option.some.injEq, Option.some.injEq] at hw
    rwa [hw]
  · rintro ⟨hwithin, h⟩ i y hy
    cases i with
    | zero =>
        rw [List.getElem?_cons_zero, Option.some.injEq, Option.some.injEq] at hy
        exact ⟨z, rfl, hy ▸ hwithin⟩
    | succ i => exact h i y hy

/-- Without a bad reading there is nothing to fear. -/
theorem allWithin_of_inStep {xs : List (Option Single)} (hxs : AllModerate xs)
    {before after : Option Single} (h : c.InStep before after) :
    c.AllWithin xs (c.relay before after xs) := by
  intro i x hx
  obtain ⟨z, hz, hdenotes⟩ := relay_getElem? xs hxs h i x hx
  exact ⟨z, hz, within_of_denotes (hxs x (List.mem_of_getElem? hx)) hdenotes⟩

/-- A value is close to a moderate reading if the grid point of its step count is. -/
theorem within_narrow_iff {q : Double} {n : ℤ} (hq : q.Denotes n) {w : Single} (hw : Moderate w) :
    c.Within w (q / c.precision).narrow ↔
      |c.gridPoint n - w.value| ≤ 1 / (2 * c.perUnit) + 1 / 2 ^ 11 := by
  constructor
  · rintro ⟨hfin, hclose⟩
    rwa [(denotes_gridPoint_of_isFinite hq hfin).value_eq] at hclose
  · intro hclose
    have hdenotes := denotes_gridPoint hq (abs_div_perUnit_le_of_close hw.2 hclose)
    refine ⟨hdenotes.isFinite_eq, ?_⟩
    rw [hdenotes.value_eq]
    exact hclose

/-! ## Slipped by some steps -/

/-- One reading: what the slip makes of it, and that the slip is passed on. -/
theorem restore_difference_slip {slip : ℤ} (hslip : |slip| ≤ 1) {y z w : Single}
    (hy : Moderate y) (hw : Moderate w) (hz : z.isFinite = true)
    (hlevel : c.level z.value = c.level y.value + slip) :
    ∃ v, c.restore (some z) (c.difference (some y) (some w)) = some v ∧
      (c.Within w v ↔ |c.gridPoint (c.level w.value + slip) - w.value| ≤
        1 / (2 * c.perUnit) + 1 / 2 ^ 11) ∧
      (c.Within w v → c.level v.value = c.level w.value + slip) := by
  have hland := denotes_landing slip hy hw hz hlevel hslip
  refine ⟨_, rfl, within_narrow_iff hland hw, ?_⟩
  intro h
  have hdenotes := denotes_gridPoint_of_isFinite hland h.1
  rw [hdenotes.value_eq, level_gridPoint (abs_level_add_lt hw hslip)]

/--
**A slip stays until the next gap.**

A reference that is one step off its source puts every reading on the grid point one step off, up
to the next gap. After that the two sides are in step again.
-/
theorem allWithin_relay_iff {slip : ℤ} (hslip : |slip| ≤ 1) (rest : List (Option Single))
    (hrest : AllModerate rest) :
    ∀ {y z : Single}, Moderate y → z.isFinite = true → c.level z.value = c.level y.value + slip →
      (c.AllWithin rest (c.relay (some y) (some z) rest) ↔
        ∀ w, some w ∈ rest.takeWhile Option.isSome →
          |c.gridPoint (c.level w.value + slip) - w.value| ≤
            1 / (2 * c.perUnit) + 1 / 2 ^ 11) := by
  induction rest with
  | nil =>
      intro y z _ _ _
      constructor
      · intro _ w hw
        simp at hw
      · intro _ i x hx
        simp at hx
  | cons x rest ih =>
      intro y z hy hz hlevel
      cases x with
      | none =>
          -- the gap: no condition on one side, and no slip any more on the other
          constructor
          · intro _ w hw
            simp at hw
          · intro _
            rw [relay, allWithin_cons_none]
            exact allWithin_of_inStep hrest.tail .absent
      | some w =>
          have hw := hrest.head w rfl
          obtain ⟨v, hv, hwithin, hnext⟩ := restore_difference_slip hslip hy hw hz hlevel
          rw [relay, hv, allWithin_cons_some, List.takeWhile_cons_of_pos rfl]
          constructor
          · rintro ⟨hfirst, hothers⟩ a ha
            rcases List.mem_cons.mp ha with heq | hmem
            · rw [Option.some.inj heq]
              exact hwithin.mp hfirst
            · exact (ih hrest.tail hw hfirst.1 (hnext hfirst)).mp hothers a hmem
          · intro h
            -- the head is close, so it is finite, and passes on the slip
            have hfirst := hwithin.mpr (h w List.mem_cons_self)
            refine ⟨hfirst, (ih hrest.tail hw hfirst.1 (hnext hfirst)).mpr ?_⟩
            intro a ha
            exact h a (List.mem_cons_of_mem _ ha)

end RoastTelemetry.Codec
