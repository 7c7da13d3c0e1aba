import RoastTelemetry.Proofs.Binary.Ordered

/-!
# Bounds that rounding keeps

Rounding is monotone and leaves the numbers of its format alone, so a bound that is one of these
holds of the rounded result if it holds of the exact one. Nothing is lost on the way, and nothing
overflows between two bounds that fit.

The sign of a result is the case of the bound zero, where infinities may take part.
-/

namespace RoastTelemetry

namespace Format

variable {f : Format} {r : ℚ} {m n : Nat}

/-- A number that is neither rounded nor too large. -/
def Fits (f : Format) (r : ℚ) : Prop := f.Representable r ∧ |r| < f.limit

/-- Up to the `n`-th no multiple of a number is rounded or too large. -/
def MultiplesFit (f : Format) (n : Nat) (r : ℚ) : Prop := ∀ k ≤ n, f.Fits (k * r)

theorem MultiplesFit.mono (h : f.MultiplesFit n r) (hm : m ≤ n) : f.MultiplesFit m r :=
  fun k hk => h k (hk.trans hm)

theorem MultiplesFit.fits (h : f.MultiplesFit n r) (hn : 0 < n) : f.Fits r := by
  have hone := h 1 hn
  rwa [Nat.cast_one, one_mul] at hone

/-- Fractions fit in double precision as long as all bits of their multiples do. -/
theorem multiplesFit_double {i : ℤ} {j : Nat} (hi : n * i.natAbs ≤ 2 ^ 53) (hj : j ≤ 1074) :
    double.MultiplesFit n (i / 2 ^ j) := by
  intro k hk
  have habs : (k * i).natAbs ≤ 2 ^ 53 := by
    rw [Int.natAbs_mul, Int.natAbs_natCast]
    exact (Nat.mul_le_mul_right _ hk).trans hi
  have hsplit : (k : ℚ) * (i / 2 ^ j) = ((k * i : ℤ) : ℚ) / 2 ^ j := by
    push_cast
    ring
  rw [hsplit]
  refine ⟨representable_intCast_div habs hj, ?_⟩
  have hle : |((k * i : ℤ) : ℚ)| ≤ 2 ^ 53 := by
    rw [← Int.cast_abs, Int.abs_eq_natAbs]
    exact_mod_cast habs
  calc |((k * i : ℤ) : ℚ) / 2 ^ j| ≤ |((k * i : ℤ) : ℚ)| := by
        rw [abs_div, abs_of_pos (by positivity : (0 : ℚ) < 2 ^ j)]
        exact div_le_self (abs_nonneg _) (one_le_pow₀ (by norm_num))
    _ ≤ 2 ^ 53 := hle
    _ < double.limit := two_pow_lt_limit_double (by norm_num)

theorem multiplesFit_one_div {j : Nat} (hn : n ≤ 2 ^ 53) (hj : j ≤ 1074) :
    double.MultiplesFit n (1 / 2 ^ j) := by
  have h := multiplesFit_double (n := n) (i := 1) (by rwa [Int.natAbs_one, Nat.mul_one]) hj
  rwa [Int.cast_one] at h

theorem multiplesFit_zero : f.MultiplesFit n 0 := by
  intro k _
  rw [mul_zero]
  exact ⟨⟨0, by rw [abs_zero, magnitude_zero]⟩, by rw [abs_zero]; exact f.limit_pos⟩

theorem Fits.neg (h : f.Fits r) : f.Fits (-r) := by
  unfold Fits Representable at h ⊢
  rwa [abs_neg]

end Format

namespace Binary

variable {f : Format} {x y : Binary f} {r low high : ℚ}

/-! ## Two bounds -/

theorem Denotes.fits (h : x.Denotes r) : f.Fits r := ⟨h.representable, h.abs_lt_limit⟩

/-- Single-precision values fit in double precision more than five hundred million times. -/
theorem Denotes.multiplesFit {x : Single} (h : x.Denotes r) :
    Format.double.MultiplesFit (2 ^ 29) r := by
  intro k hk
  refine ⟨representable_mul_of_le (j := 29) hk (by decide) (by decide) h.representable, ?_⟩
  have hk' : (k : ℚ) ≤ 2 ^ 29 := by exact_mod_cast hk
  have hr := h.abs_lt_limit
  rw [Format.limit_single] at hr
  calc |(k : ℚ) * r| = k * |r| := by rw [abs_mul, Nat.abs_cast]
    _ ≤ 2 ^ 29 * 2 ^ 128 := mul_le_mul hk' hr.le (abs_nonneg r) (by positivity)
    _ = 2 ^ 157 := by norm_num
    _ < Format.double.limit := Format.two_pow_lt_limit_double (by norm_num)

/-- A value that stands for a number between two others. -/
def LiesIn (low high : ℚ) (x : Binary f) : Prop := ∃ r, x.Denotes r ∧ low ≤ r ∧ r ≤ high

theorem Rounds.denotes_of_fits (h : x.Rounds r) (hr : f.Fits r) : x.Denotes r :=
  h.denotes_exact hr.1 hr.2

theorem Denotes.zero_of_mul {s : ℚ} (hx : x.Denotes r) (hy : y.Denotes s) (h : r * s = 0) :
    (x * y).Denotes 0 := by
  have hproduct := hx.mul hy
  rw [h] at hproduct
  exact hproduct.denotes_of_fits denotes_zero.fits

/-- **What lies between two bounds that fit still does when it is rounded.** -/
theorem Rounds.liesIn (h : x.Rounds r) (hlow : f.Fits low) (hhigh : f.Fits high) (hl : low ≤ r)
    (hh : r ≤ high) : x.LiesIn low high := by
  have hmin := f.nearest_mono hl
  have hmax := f.nearest_mono hh
  rw [Format.nearest_of_representable hlow.1] at hmin
  rw [Format.nearest_of_representable hhigh.1] at hmax
  have hfits : |f.nearest r| < f.limit :=
    abs_lt.mpr ⟨(abs_lt.mp hlow.2).1.trans_le hmin, hmax.trans_lt (abs_lt.mp hhigh.2).2⟩
  exact ⟨_, h.denotes hfits, hmin, hmax⟩

theorem LiesIn.le_le (h : x.LiesIn low high) {a b : Binary f} (ha : a.Denotes low)
    (hb : b.Denotes high) : a ≤ x ∧ x ≤ b := by
  obtain ⟨r, hx, hl, hh⟩ := h
  exact ⟨(ha.le_iff hx).mpr hl, (hx.le_iff hb).mpr hh⟩

/-! ## A direction -/

/-- Order in one of the two directions. -/
def Toward {α : Type} [LE α] (down : Bool) (x y : α) : Prop := if down then y ≤ x else x ≤ y

theorem toward_refl {α : Type} [Preorder α] (down : Bool) (x : α) : Toward down x x := by
  cases down with
  | false => exact le_rfl
  | true => exact le_rfl

theorem Toward.map {α β : Type} [LE α] [LE β] {down : Bool} {x y : α} (h : Toward down x y)
    {g : α → β} (hg : ∀ {x y}, x ≤ y → g x ≤ g y) : Toward down (g x) (g y) := by
  cases down with
  | false => exact hg h
  | true => exact hg h

theorem Denotes.toward_iff {down : Bool} {s : ℚ} (hx : x.Denotes r) (hy : y.Denotes s) :
    Toward down x y ↔ Toward down r s := by
  cases down with
  | false => exact hx.le_iff hy
  | true => exact hy.le_iff hx

theorem rounds_zero : (0 : Binary f).Rounds 0 := by
  refine rounds_ofRatio false Nat.one_pos ?_
  rw [Nat.zero_mul, signed_cast]
  simp

/-- The sign of a result is that of the exact one, whether or not it overflows. -/
theorem Rounds.toward {down : Bool} (h : x.Rounds r) (hr : Toward down 0 r) : Toward down 0 x := by
  cases down with
  | false => exact rounds_zero.le h hr
  | true => exact h.le rounds_zero hr

theorem Rounds.exists_toward {down : Bool} (h : x.Rounds r) (hfinite : x.isFinite = true)
    (hr : Toward down 0 r) : ∃ s, x.Denotes s ∧ Toward down 0 s := by
  have hx := denotes_value hfinite
  exact ⟨_, hx, (denotes_zero.toward_iff hx).mp (h.toward hr)⟩

/-! ## The ends of a list -/

/-- An operation that picks one of two values, the one further on in an order. -/
structure Picks (R : Binary f → Binary f → Prop) (op : Binary f → Binary f → Binary f) : Prop where
  trans : ∀ {x y z}, R x y → R y z → R x z
  refl : ∀ {x}, x.isNaN = false → R x x
  eq_or : ∀ x y, op x y = x ∨ op x y = y
  left : ∀ {x} y, x.isNaN = false → R x (op x y)
  right : ∀ x {y}, y.isNaN = false → R y (op x y)

theorem picks_max : Picks (fun x y : Binary f => x ≤ y) max where
  trans := le_trans
  refl := le_self
  eq_or := max_eq_or
  left y hx := le_max_left y hx
  right x _ hy := le_max_right x hy

theorem picks_min : Picks (fun x y : Binary f => y ≤ x) min where
  trans hxy hyz := le_trans hyz hxy
  refl := le_self
  eq_or := min_eq_or
  left y hx := min_le_left y hx
  right x _ hy := min_le_right x hy

/-- Going through a list, it ends at one of the values, and no other is further on. -/
theorem Picks.foldl {R : Binary f → Binary f → Prop} {op : Binary f → Binary f → Binary f}
    (h : Picks R op) {xs : List (Binary f)} (hxs : ∀ x ∈ xs, x.isNaN = false)
    (hx : x.isNaN = false) :
    xs.foldl op x ∈ x :: xs ∧ ∀ y ∈ x :: xs, R y (xs.foldl op x) := by
  induction xs generalizing x with
  | nil => exact ⟨List.mem_singleton_self x, by simpa using h.refl hx⟩
  | cons z rest ih =>
      have hz := hxs z List.mem_cons_self
      have hpick : (op x z).isNaN = false := by
        rcases h.eq_or x z with heq | heq
        · rwa [heq]
        · rwa [heq]
      obtain ⟨hmem, hend⟩ := ih (fun y hy => hxs y (List.mem_cons_of_mem z hy)) hpick
      have hlast := hend _ List.mem_cons_self
      rw [List.foldl_cons]
      constructor
      · rcases List.mem_cons.mp hmem with heq | hrest
        · rw [heq]
          rcases h.eq_or x z with heq | heq
          · rw [heq]
            exact List.mem_cons_self
          · rw [heq]
            exact List.mem_cons_of_mem x List.mem_cons_self
        · exact List.mem_cons_of_mem x (List.mem_cons_of_mem z hrest)
      · simp only [List.forall_mem_cons]
        exact ⟨h.trans (h.left z hx) hlast, h.trans (h.right x hz) hlast,
          fun y hy => hend y (List.mem_cons_of_mem _ hy)⟩

/-- From a start that is further back than all of the list, it ends at one of the list. -/
theorem Picks.foldl_mem {R : Binary f → Binary f → Prop} {op : Binary f → Binary f → Binary f}
    (h : Picks R op) {xs : List (Binary f)} (hne : xs ≠ []) (hxs : ∀ y ∈ xs, y.isNaN = false)
    (hx : x.isNaN = false) (hback : ∀ y ∈ xs, ¬R y x) :
    xs.foldl op x ∈ xs ∧ ∀ y ∈ xs, R y (xs.foldl op x) := by
  obtain ⟨hmem, hend⟩ := h.foldl hxs hx
  have hlast := fun y hy => hend y (List.mem_cons_of_mem x hy)
  refine ⟨?_, hlast⟩
  rcases List.mem_cons.mp hmem with heq | hmem
  · obtain ⟨y, hy⟩ := List.exists_mem_of_ne_nil xs hne
    have hle := hlast y hy
    rw [heq] at hle
    exact absurd hle (hback y hy)
  · exact hmem

end Binary

end RoastTelemetry
