import RoastTelemetry.Proofs.Binary.Whole

/-!
# Order through rounding

The nearest code rises with the ratio, and what does not fit becomes the infinity on its side,
beyond all that fits. So outcomes of rounding are ordered like the exact results, whether or not
these fit. An operation that rounds a monotone one and takes each infinity to itself therefore
keeps the order of the whole line, and never makes a NaN of what was none.
-/

namespace RoastTelemetry

namespace Binary

variable {f : Format} {x y : Binary f} {r s : ℚ}

/-! ## Ranks -/

theorem le_iff_rank : x ≤ y ↔ ∃ a b, x.rank = some a ∧ y.rank = some b ∧ a ≤ b := by
  have h : x ≤ y ↔ x.le y = true := Iff.rfl
  rw [h, le]
  cases x.rank with
  | none => simp
  | some a =>
      cases y.rank with
      | none => simp
      | some b => simp

/-- What can be compared is no NaN. -/
theorem isNaN_of_le (h : x ≤ y) : x.isNaN = false ∧ y.isNaN = false := by
  obtain ⟨a, b, hx, hy, -⟩ := le_iff_rank.mp h
  constructor
  · cases x with
    | nan => cases hx
    | infinity negative => rfl
    | finite negative code => rfl
  · cases y with
    | nan => cases hy
    | infinity negative => rfl
    | finite negative code => rfl

theorem rank_ofRatio (negative : Bool) (n d : Nat) :
    (ofRatio negative n d : Binary f).rank =
      some (signed negative (Min.min (f.nearestCode n d) f.infinityCode)) := by
  unfold ofRatio
  split
  · rename_i hcode
    rw [Nat.min_eq_left hcode.le]
    rfl
  · rename_i hcode
    rw [Nat.min_eq_right (not_lt.mp hcode)]
    rfl

/-- The rank of an outcome, with a sign that is the one of the exact result but for a zero. -/
theorem Rounds.exists_rank_eq (h : x.Rounds r) :
    ∃ negative, x.rank = some (signed negative (Min.min (f.codeOf r) f.infinityCode)) ∧
      if negative then r ≤ 0 else 0 ≤ r := by
  obtain ⟨negative, n, d, hd, hr, rfl⟩ := h
  have hone := f.one_cast_pos
  have habs : |r| = n / (d * f.one) := by
    rw [hr, abs_div, abs_signed, abs_of_nonneg (by positivity : (0 : ℚ) ≤ d * f.one)]
  refine ⟨negative, ?_, ?_⟩
  · rw [rank_ofRatio, Format.codeOf_eq hd habs]
  · have hnonneg : (0 : ℚ) ≤ n / (d * f.one) := by positivity
    rw [hr, signed_cast]
    cases negative with
    | false => simpa using hnonneg
    | true =>
        simp only [if_true]
        rw [neg_div]
        linarith

theorem lt_iff_rank : x < y ↔ ∃ a b, x.rank = some a ∧ y.rank = some b ∧ a < b := by
  have h : x < y ↔ x.lt y = true := Iff.rfl
  rw [h, lt]
  cases x.rank with
  | none => simp
  | some a =>
      cases y.rank with
      | none => simp
      | some b => simp

theorem le_trans {z : Binary f} (hxy : x ≤ y) (hyz : y ≤ z) : x ≤ z := by
  obtain ⟨a, b, hx, hy, hab⟩ := le_iff_rank.mp hxy
  obtain ⟨b', c, hy', hz, hbc⟩ := le_iff_rank.mp hyz
  obtain rfl := Option.some.inj (hy.symm.trans hy')
  exact le_iff_rank.mpr ⟨a, c, hx, hz, Int.le_trans hab hbc⟩

theorem le_of_lt (h : x < y) : x ≤ y := by
  obtain ⟨a, b, hx, hy, hab⟩ := lt_iff_rank.mp h
  exact le_iff_rank.mpr ⟨a, b, hx, hy, Int.le_of_lt hab⟩

theorem lt_of_le_of_lt {z : Binary f} (hxy : x ≤ y) (hyz : y < z) : x < z := by
  obtain ⟨a, b, hx, hy, hab⟩ := le_iff_rank.mp hxy
  obtain ⟨b', c, hy', hz, hbc⟩ := lt_iff_rank.mp hyz
  obtain rfl := Option.some.inj (hy.symm.trans hy')
  exact lt_iff_rank.mpr ⟨a, c, hx, hz, Int.lt_of_le_of_lt hab hbc⟩

theorem not_le_of_lt (h : x < y) : ¬y ≤ x := by
  intro hle
  obtain ⟨a, b, hx, hy, hab⟩ := lt_iff_rank.mp h
  obtain ⟨b', a', hy', hx', hba⟩ := le_iff_rank.mp hle
  obtain rfl := Option.some.inj (hx.symm.trans hx')
  obtain rfl := Option.some.inj (hy.symm.trans hy')
  omega

/-- **Outcomes are ordered like the exact results**, infinities included. -/
theorem Rounds.le (hx : x.Rounds r) (hy : y.Rounds s) (h : r ≤ s) : x ≤ y := by
  obtain ⟨a, hxrank, ha⟩ := hx.exists_rank_eq
  obtain ⟨b, hyrank, hb⟩ := hy.exists_rank_eq
  refine le_iff_rank.mpr ⟨_, _, hxrank, hyrank, ?_⟩
  have hcode : |r| ≤ |s| →
      Min.min (f.codeOf r) f.infinityCode ≤ Min.min (f.codeOf s) f.infinityCode :=
    fun habs => min_le_min_right _ (Format.codeOf_mono habs)
  have hcode' : |s| ≤ |r| →
      Min.min (f.codeOf s) f.infinityCode ≤ Min.min (f.codeOf r) f.infinityCode :=
    fun habs => min_le_min_right _ (Format.codeOf_mono habs)
  unfold signed
  cases a with
  | false =>
      simp only [Bool.false_eq_true, if_false] at ha ⊢
      have hle := hcode (by rwa [abs_of_nonneg ha, abs_of_nonneg (ha.trans h)])
      cases b with
      | false => simpa using hle
      | true =>
          -- both are zero
          simp only [if_true] at hb ⊢
          have hr0 : r = 0 := le_antisymm (h.trans hb) ha
          have hs0 : s = 0 := le_antisymm hb (ha.trans h)
          simp [hr0, hs0]
  | true =>
      simp only [if_true] at ha ⊢
      cases b with
      | false =>
          simp only [Bool.false_eq_true, if_false]
          omega
      | true =>
          simp only [if_true] at hb ⊢
          have hle := hcode' (by rw [abs_of_nonpos ha, abs_of_nonpos hb]; linarith)
          omega

/-! ## The infinities at both ends -/

theorem exists_rank (h : x.isNaN = false) : ∃ a, x.rank = some a := by
  cases x with
  | nan => cases h
  | infinity negative => exact ⟨_, rfl⟩
  | finite negative code => exact ⟨_, rfl⟩

/-- The ranks of finite values are strictly between those of the infinities. -/
theorem finite_or_infinity_of_rank {a : ℤ} (h : x.rank = some a) :
    x.isFinite = true ∧ a.natAbs < f.infinityCode ∨
      x = infinity false ∧ a = f.infinityCode ∨ x = infinity true ∧ a = -f.infinityCode := by
  cases x with
  | nan => cases h
  | infinity negative =>
      have ha : signed negative f.infinityCode = a := Option.some.inj h
      subst ha
      cases negative with
      | false => exact .inr (.inl ⟨rfl, rfl⟩)
      | true => exact .inr (.inr ⟨rfl, rfl⟩)
  | finite negative code =>
      have ha : signed negative code = a := Option.some.inj h
      refine .inl ⟨rfl, ?_⟩
      subst ha
      cases negative <;> simp [signed]

theorem le_self (h : x.isNaN = false) : x ≤ x := by
  obtain ⟨a, ha⟩ := exists_rank h
  exact le_iff_rank.mpr ⟨a, a, ha, ha, le_rfl⟩

theorem isNaN_of_isFinite (h : x.isFinite = true) : x.isNaN = false := by
  obtain ⟨negative, code, rfl, -⟩ := (denotes_value h).exists_finite
  rfl

theorem neg_infinity_le (h : x.isNaN = false) : infinity true ≤ x := by
  obtain ⟨a, ha⟩ := exists_rank h
  refine le_iff_rank.mpr ⟨-(f.infinityCode : ℤ), a, rfl, ha, ?_⟩
  rcases finite_or_infinity_of_rank ha with ⟨-, h⟩ | ⟨-, h⟩ | ⟨-, h⟩ <;> omega

theorem le_infinity (h : x.isNaN = false) : x ≤ infinity false := by
  obtain ⟨a, ha⟩ := exists_rank h
  refine le_iff_rank.mpr ⟨a, f.infinityCode, ha, rfl, ?_⟩
  rcases finite_or_infinity_of_rank ha with ⟨-, h⟩ | ⟨-, h⟩ | ⟨-, h⟩ <;> omega

/-- What is ordered away from both ends is finite. -/
theorem isFinite_of_le (h : x ≤ y) (hx : x ≠ infinity true) (hy : y ≠ infinity false) :
    x.isFinite = true ∧ y.isFinite = true := by
  obtain ⟨a, b, ha, hb, hle⟩ := le_iff_rank.mp h
  have hpos := f.infinityCode_pos
  rcases finite_or_infinity_of_rank ha with ⟨hfx, ha⟩ | ⟨-, ha⟩ | ⟨hx', -⟩
  · rcases finite_or_infinity_of_rank hb with ⟨hfy, -⟩ | ⟨hy', -⟩ | ⟨-, hb⟩
    · exact ⟨hfx, hfy⟩
    · exact absurd hy' hy
    · omega
  · rcases finite_or_infinity_of_rank hb with ⟨-, hb⟩ | ⟨hy', -⟩ | ⟨-, hb⟩
    · omega
    · exact absurd hy' hy
    · omega
  · exact absurd hx' hx

theorem not_infinity_le (h : x.isFinite = true) : ¬infinity false ≤ x := by
  intro hle
  cases (isFinite_of_le hle (by simp) fun heq => by simp [heq, isFinite] at h).1

theorem not_le_neg_infinity (h : x.isFinite = true) : ¬x ≤ infinity true := by
  intro hle
  cases (isFinite_of_le hle (fun heq => by simp [heq, isFinite] at h) (by simp)).2

/-- Beyond what is finite there is infinity alone. -/
theorem eq_infinity_of_le (h : x ≤ y) (hx : x.isFinite = true) (hy : y.isFinite = false) :
    y = infinity false := by
  by_contra htop
  have hfinite := (isFinite_of_le h (fun heq => by simp [heq, isFinite] at hx) htop).2
  rw [hfinite] at hy
  cases hy

theorem isFinite_of_between {z : Binary f} (hxy : x ≤ y) (hyz : y ≤ z) (hx : x.isFinite = true)
    (hz : z.isFinite = true) : y.isFinite = true := by
  refine (isFinite_of_le hyz ?_ ?_).1
  · intro hbottom
    subst hbottom
    -- what is at most the bottom is the bottom
    by_cases heq : x = infinity true
    · subst heq
      cases hx
    · exact absurd (isFinite_of_le hxy heq (by simp)).2 (by simp [isFinite])
  · intro htop
    subst htop
    cases hz

/-! ## Larger and smaller ones -/

theorem le_of_not_lt (hx : x.isNaN = false) (hy : y.isNaN = false) (h : ¬x < y) : y ≤ x := by
  obtain ⟨a, ha⟩ := exists_rank hx
  obtain ⟨b, hb⟩ := exists_rank hy
  refine le_iff_rank.mpr ⟨b, a, hb, ha, ?_⟩
  by_contra hlt
  exact h (lt_iff_rank.mpr ⟨a, b, ha, hb, not_le.mp hlt⟩)

theorem max_eq_or (x y : Binary f) : x.max y = x ∨ x.max y = y := by
  unfold max
  split
  · exact .inr rfl
  · split
    · exact .inl rfl
    · split
      · exact .inr rfl
      · exact .inl rfl

theorem min_eq_or (x y : Binary f) : x.min y = x ∨ x.min y = y := by
  unfold min
  split
  · exact .inr rfl
  · split
    · exact .inl rfl
    · split
      · exact .inr rfl
      · exact .inl rfl

theorem lt_or_le (hx : x.isNaN = false) (hy : y.isNaN = false) : x < y ∨ y ≤ x := by
  by_cases h : x < y
  · exact .inl h
  · exact .inr (le_of_not_lt hx hy h)

theorem max_of_lt (h : x < y) : x.max y = y := by
  obtain ⟨hx, hy⟩ := isNaN_of_le (le_of_lt h)
  unfold max
  rw [hx, hy, if_neg Bool.false_ne_true, if_neg Bool.false_ne_true, if_pos h]

theorem max_of_le (h : y ≤ x) : x.max y = x := by
  obtain ⟨hy, hx⟩ := isNaN_of_le h
  unfold max
  rw [hx, hy, if_neg Bool.false_ne_true, if_neg Bool.false_ne_true,
    if_neg fun hlt => not_le_of_lt hlt h]

theorem min_of_lt (h : y < x) : x.min y = y := by
  obtain ⟨hy, hx⟩ := isNaN_of_le (le_of_lt h)
  unfold min
  rw [hx, hy, if_neg Bool.false_ne_true, if_neg Bool.false_ne_true, if_pos h]

theorem min_of_le (h : x ≤ y) : x.min y = x := by
  obtain ⟨hx, hy⟩ := isNaN_of_le h
  unfold min
  rw [hx, hy, if_neg Bool.false_ne_true, if_neg Bool.false_ne_true,
    if_neg fun hlt => not_le_of_lt hlt h]

theorem le_max_left (y : Binary f) (hx : x.isNaN = false) : x ≤ x.max y := by
  unfold max
  rw [hx]
  split
  · contradiction
  · split
    · exact le_self hx
    · split
      · rename_i hlt
        exact le_of_lt hlt
      · exact le_self hx

theorem le_max_right (x : Binary f) (hy : y.isNaN = false) : y ≤ x.max y := by
  unfold max
  rw [hy]
  split
  · exact le_self hy
  · rename_i hx
    split
    · contradiction
    · split
      · exact le_self hy
      · rename_i hlt
        exact le_of_not_lt (Bool.eq_false_iff.mpr hx) hy hlt

theorem min_le_left (y : Binary f) (hx : x.isNaN = false) : x.min y ≤ x := by
  unfold min
  rw [hx]
  split
  · contradiction
  · split
    · exact le_self hx
    · split
      · rename_i hlt
        exact le_of_lt hlt
      · exact le_self hx

theorem min_le_right (x : Binary f) (hy : y.isNaN = false) : x.min y ≤ y := by
  unfold min
  rw [hy]
  split
  · exact le_self hy
  · rename_i hx
    split
    · contradiction
    · split
      · exact le_self hy
      · rename_i hlt
        exact le_of_not_lt hy (Bool.eq_false_iff.mpr hx) hlt

/-! ## The distance of a value from itself -/

theorem abs_sub_self (x : Binary f) : (x - x).abs = 0 ∨ (x - x).abs = nan := by
  cases x with
  | nan => exact .inr rfl
  | infinity negative =>
      have hsub : (infinity negative : Binary f) - infinity negative =
          infinity negative + infinity (!negative) := rfl
      rw [hsub, infinity_add_infinity_not]
      exact .inr rfl
  | finite negative code =>
      refine .inl ?_
      have hsum : signed negative (f.units code) + signed (!negative) (f.units code) = 0 := by
        cases negative <;> simp [signed]
      have hsub : (finite negative code : Binary f) - finite negative code =
          ofRatio (negative && !negative) 0 1 := by
        show ofRatio _ _ 1 = _
        rw [hsum, if_pos rfl]
        rfl
      rw [hsub, ofRatio_zero _ Nat.one_pos, zero_eq]
      rfl

/-- What is not negative is not below the distance of a value from itself. -/
theorem not_lt_abs_sub_self (h : ¬y < 0) (x : Binary f) : ¬y < (x - x).abs := by
  rcases abs_sub_self x with heq | heq
  · rwa [heq]
  · rw [heq]
    intro hlt
    obtain ⟨-, b, -, hb, -⟩ := lt_iff_rank.mp hlt
    cases hb

/-! ## Operations that keep the order -/

/-- An operation that rounds a monotone one and takes each infinity to itself. -/
structure RoundsMonotone (op : Binary f → Binary f) (exact : ℚ → ℚ) : Prop where
  mono : Monotone exact
  rounds : ∀ {x r}, x.Denotes r → (op x).Rounds (exact r)
  infinity_eq : ∀ negative, op (infinity negative) = infinity negative

theorem Rounds.isNaN_eq (h : x.Rounds r) : x.isNaN = false := (isNaN_of_le (h.le h le_rfl)).1

/-- **Such an operation keeps the order of the whole line.** -/
theorem RoundsMonotone.le {op : Binary f → Binary f} {exact : ℚ → ℚ}
    (h : RoundsMonotone op exact) (hxy : x ≤ y) : op x ≤ op y := by
  have hnan : ∀ {z : Binary f}, z.isNaN = false → (op z).isNaN = false := by
    intro z hz
    cases z with
    | nan => cases hz
    | infinity negative =>
        rw [h.infinity_eq]
        rfl
    | finite negative code => exact (h.rounds (denotes_finite negative code)).isNaN_eq
  obtain ⟨hx, hy⟩ := isNaN_of_le hxy
  by_cases hbottom : x = infinity true
  · rw [hbottom, h.infinity_eq]
    exact neg_infinity_le (hnan hy)
  by_cases htop : y = infinity false
  · rw [htop, h.infinity_eq]
    exact le_infinity (hnan hx)
  obtain ⟨hfx, hfy⟩ := isFinite_of_le hxy hbottom htop
  have hdx := denotes_value hfx
  have hdy := denotes_value hfy
  exact (h.rounds hdx).le (h.rounds hdy) (h.mono ((hdx.le_iff hdy).mp hxy))

theorem roundsMonotone_sub {z : Binary f} (hz : z.Denotes s) :
    RoundsMonotone (fun x => x - z) (fun r => r - s) where
  mono _ _ h := sub_le_sub_right h s
  rounds hx := hx.sub hz
  infinity_eq := infinity_sub hz.isFinite_eq

theorem roundsMonotone_add_left {z : Binary f} (hz : z.Denotes s) :
    RoundsMonotone (fun x => z + x) (fun r => s + r) where
  mono _ _ h := add_le_add_right h s
  rounds hx := hz.add hx
  infinity_eq := add_infinity hz.isFinite_eq

/-- A positive value has the code of a positive magnitude. -/
theorem Denotes.exists_finite_of_pos (h : x.Denotes r) (hr : 0 < r) :
    ∃ code : Fin f.infinityCode, x = .finite false code ∧ code.val ≠ 0 := by
  obtain ⟨negative, code, rfl, hval⟩ := h.exists_finite
  have hone := f.one_cast_pos
  rw [signed_cast] at hval
  cases negative with
  | false =>
      refine ⟨code, rfl, ?_⟩
      intro h0
      rw [h0, Format.units_zero] at hval
      simp at hval
      exact hr.ne' hval
  | true =>
      have hnonneg : (0 : ℚ) ≤ f.units code / f.one := by positivity
      simp only [if_true] at hval
      rw [neg_div] at hval
      linarith

theorem roundsMonotone_mul {z : Binary f} (hz : z.Denotes s) (hs : 0 < s) :
    RoundsMonotone (fun x => x * z) (fun r => r * s) where
  mono _ _ h := mul_le_mul_of_nonneg_right h hs.le
  rounds hx := hx.mul hz
  infinity_eq negative := by
    obtain ⟨code, rfl, hcode⟩ := hz.exists_finite_of_pos hs
    have hmul : (infinity negative : Binary f) * finite false code =
        if code.val = 0 then nan else infinity (negative ^^ false) := rfl
    rw [hmul, if_neg hcode, Bool.xor_false]

theorem roundsMonotone_div {z : Binary f} (hz : z.Denotes s) (hs : 0 < s) :
    RoundsMonotone (fun x => x / z) (fun r => r / s) where
  mono _ _ h := div_le_div_of_nonneg_right h hs.le
  rounds hx := hx.div hz hs.ne'
  infinity_eq negative := by
    obtain ⟨code, rfl, -⟩ := hz.exists_finite_of_pos hs
    have hdiv : (infinity negative : Binary f) / finite false code =
        infinity (negative ^^ false) := rfl
    rw [hdiv, Bool.xor_false]

theorem roundsMonotone_round : RoundsMonotone (round (f := f)) (fun r => roundAway r) where
  mono _ _ h := Int.cast_le.mpr (roundAway_mono h)
  rounds hx := hx.round
  infinity_eq _ := rfl

/-! ## Lists in order -/

/-- Each value is at most the ones after it, and none is a NaN. -/
def Ascending (xs : List (Binary f)) : Prop :=
  xs.Pairwise (· ≤ ·) ∧ ∀ x ∈ xs, x.isNaN = false

theorem Ascending.map {g : Format} {xs : List (Binary f)} (h : Ascending xs)
    {op : Binary f → Binary g} (hop : ∀ {x y}, x ≤ y → op x ≤ op y) : Ascending (xs.map op) := by
  refine ⟨List.pairwise_map.mpr (h.1.imp hop), ?_⟩
  intro y hy
  obtain ⟨x, hx, rfl⟩ := List.mem_map.mp hy
  exact (isNaN_of_le (hop (le_self (h.2 x hx)))).1

end Binary

end RoastTelemetry
