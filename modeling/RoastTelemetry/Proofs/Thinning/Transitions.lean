import RoastTelemetry.Proofs.Binary.Ordered
import RoastTelemetry.Proofs.Thinning.Positions
import Mathlib.Algebra.Order.Floor.Div

/-!
# What thinning shows of the samples it drops

Each sample at a multiple of the stride was compared with the last one kept before it, and dropped
only if the two are similar. So at every such position the chart shows a sample that is similar to
the one there, however slowly things drifted. The one thing that can spoil this is the last sample,
when it takes the place of the last one kept. It does so only at the cap, and there are no more
candidates than the cap allows, so then all of them were kept: each differs from the one before it.
-/

namespace RoastTelemetry.Thinning

open Binary

variable {threshold : Single}

/-! ## Similar samples -/

/-- Two readings are no farther apart than the threshold, or neither was taken. -/
structure Near (threshold : Single) (a b : Option Single) : Prop where
  isSome_eq : a.isSome = b.isSome
  close : ∀ x ∈ a, ∀ y ∈ b, ¬threshold < (x - y).abs

/-- No significant change from one sample to another. -/
structure Similar (threshold : Single) (a b : Sample) : Prop where
  beanTemp : Near threshold a.beanTemp b.beanTemp
  envTemp : Near threshold a.envTemp b.envTemp
  mode : a.mode = b.mode
  heaterOn : a.heaterOn = b.heaterOn

theorem moved_eq_false_iff {a b : Option Single} :
    moved threshold a b = false ↔ Near threshold a b := by
  constructor
  · intro h
    cases a with
    | none =>
        cases b with
        | none => exact ⟨rfl, fun x hx => nomatch hx⟩
        | some y => cases h
    | some x =>
        cases b with
        | none => cases h
        | some y =>
            refine ⟨rfl, ?_⟩
            rintro x' ⟨⟩ y' ⟨⟩
            exact of_decide_eq_false h
  · intro h
    cases a with
    | none =>
        cases b with
        | none => rfl
        | some y => exact nomatch h.isSome_eq
    | some x =>
        cases b with
        | none => exact nomatch h.isSome_eq
        | some y => exact decide_eq_false (h.close x rfl y rfl)

theorem differs_eq_false_iff {a b : Sample} :
    differs threshold a b = false ↔ Similar threshold a b := by
  unfold differs
  simp only [Bool.or_eq_false_iff, moved_eq_false_iff, bne_eq_false_iff_eq]
  constructor
  · rintro ⟨⟨⟨hbean, henv⟩, hmode⟩, hheater⟩
    exact ⟨hbean, henv, hmode, hheater⟩
  · rintro ⟨hbean, henv, hmode, hheater⟩
    exact ⟨⟨⟨hbean, henv⟩, hmode⟩, hheater⟩

theorem near_self (h : ¬threshold < 0) (a : Option Single) : Near threshold a a := by
  refine ⟨rfl, ?_⟩
  rintro x hx y hy
  obtain rfl := Option.mem_unique hx hy
  exact not_lt_abs_sub_self h x

/-- A threshold that is not negative is not exceeded where nothing changes. -/
theorem similar_self (h : ¬threshold < 0) (s : Sample) : Similar threshold s s :=
  ⟨near_self h _, near_self h _, rfl, rfl⟩

/-! ## What is shown at a position -/

/-- Of the samples left, `p` is the last one that is not after position `i`. -/
structure ShowsAt (left : List (Sample × Nat)) (i : Nat) (p : Sample × Nat) : Prop where
  mem : p ∈ left
  le : p.2 ≤ i
  last : ∀ q ∈ left, q.2 ≤ i → q.2 ≤ p.2

variable {samples : List Sample} {left cs : List (Sample × Nat)} {p last : Sample × Nat} {i : Nat}

/-- A sample that is left is shown at its own position. -/
theorem showsAt_self (hp : p ∈ left) : ShowsAt left p.2 p :=
  ⟨hp, Nat.le_refl _, fun _ _ hq => hq⟩

theorem ShowsAt.cons (h : ShowsAt left i p) (hlast : last.2 ≤ p.2) :
    ShowsAt (last :: left) i p where
  mem := List.mem_cons_of_mem last h.mem
  le := h.le
  last := by
    intro q hq hqi
    rcases List.mem_cons.mp hq with rfl | hq
    · exact hlast
    · exact h.last q hq hqi

theorem ShowsAt.concat (h : ShowsAt left i p) (hlast : i < last.2) :
    ShowsAt (left ++ [last]) i p where
  mem := List.mem_append_left _ h.mem
  le := h.le
  last := by
    intro q hq hqi
    rcases List.mem_append.mp hq with hq | hq
    · exact h.last q hq hqi
    · rw [List.mem_singleton.mp hq] at hqi
      omega

theorem ShowsAt.of_concat (h : ShowsAt (left ++ [last]) i p) (hlast : i < last.2) :
    ShowsAt left i p where
  mem := by
    rcases List.mem_append.mp h.mem with hp | hp
    · exact hp
    · have hle := h.le
      rw [List.mem_singleton.mp hp] at hle
      omega
  le := h.le
  last q hq := h.last q (List.mem_append_left _ hq)

/-! ## The candidates that are kept -/

/-- Whatever was kept last, each later candidate is similar to the last one kept up to it. -/
theorem showsAt_keepFrom (hthreshold : ¬threshold < 0)
    (hrising : (last :: cs).Pairwise fun a b => a.2 < b.2) {c : Sample × Nat} (hc : c ∈ cs) :
    ∃ p, ShowsAt (last :: keepFrom threshold last.1 cs) c.2 p ∧ Similar threshold p.1 c.1 := by
  induction cs generalizing last with
  | nil => exact absurd hc List.not_mem_nil
  | cons d rest ih =>
      obtain ⟨hlast, hrest⟩ := List.pairwise_cons.mp hrising
      obtain ⟨hd, -⟩ := List.pairwise_cons.mp hrest
      have hlastd := hlast d List.mem_cons_self
      unfold keepFrom
      cases hdiffers : differs threshold last.1 d.1 with
      | true =>
          rw [if_pos rfl]
          rcases List.mem_cons.mp hc with rfl | hc
          · exact ⟨c, showsAt_self (by simp), similar_self hthreshold c.1⟩
          · obtain ⟨p, hshows, hsimilar⟩ := ih hrest hc
            -- `d` was kept at or before `c`, and after `last`
            have hdp := hshows.last d List.mem_cons_self (hd c hc).le
            exact ⟨p, hshows.cons (by omega), hsimilar⟩
      | false =>
          rw [if_neg Bool.false_ne_true]
          rcases List.mem_cons.mp hc with rfl | hc
          · refine ⟨last, ⟨List.mem_cons_self, hlastd.le, ?_⟩, differs_eq_false_iff.mp hdiffers⟩
            intro q hq hqc
            rcases List.mem_cons.mp hq with rfl | hq
            · exact Nat.le_refl _
            · -- all that is kept from here on is later
              have := hd q ((keepFrom_sublist threshold last.1 rest).subset hq)
              omega
          · exact ih (hrising.sublist ((List.sublist_cons_self d rest).cons_cons last)) hc

theorem showsAt_kept (hthreshold : ¬threshold < 0) (hrising : cs.Pairwise fun a b => a.2 < b.2)
    {c : Sample × Nat} (hc : c ∈ cs) :
    ∃ p, ShowsAt (kept threshold cs) c.2 p ∧ Similar threshold p.1 c.1 := by
  cases cs with
  | nil => exact absurd hc List.not_mem_nil
  | cons first rest =>
      rcases List.mem_cons.mp hc with rfl | hc
      · exact ⟨c, showsAt_self List.mem_cons_self, similar_self hthreshold c.1⟩
      · exact showsAt_keepFrom hthreshold hrising hc

theorem isChain_keepFrom (threshold : Single) (last : Sample × Nat) (cs : List (Sample × Nat)) :
    (last :: keepFrom threshold last.1 cs).IsChain fun a b => ¬Similar threshold a.1 b.1 := by
  induction cs generalizing last with
  | nil => exact List.isChain_singleton last
  | cons c rest ih =>
      unfold keepFrom
      split
      · rename_i hdiffers
        refine List.isChain_cons_cons.mpr ⟨?_, ih c⟩
        rw [← differs_eq_false_iff, hdiffers]
        exact Bool.noConfusion
      · exact ih last

/-- Of the candidates kept, each one differs from the one before it. -/
theorem isChain_kept (threshold : Single) (cs : List (Sample × Nat)) :
    (kept threshold cs).IsChain fun a b => ¬Similar threshold a.1 b.1 := by
  cases cs with
  | nil => exact List.isChain_nil
  | cons first rest => exact isChain_keepFrom threshold first rest

/-- In a list of rising positions, what holds of consecutive samples holds of neighbours. -/
theorem rel_of_isChain {R : Sample × Nat → Sample × Nat → Prop} (hchain : cs.IsChain R)
    (hrising : cs.Pairwise fun a b => a.2 < b.2) {a b : Sample × Nat} (ha : a ∈ cs) (hb : b ∈ cs)
    (hab : a.2 < b.2) (hnone : ∀ c ∈ cs, c.2 ≤ a.2 ∨ b.2 ≤ c.2) : R a b := by
  induction cs with
  | nil => exact absurd ha List.not_mem_nil
  | cons x rest ih =>
      obtain ⟨hx, hrest⟩ := List.pairwise_cons.mp hrising
      have hbrest : b ∈ rest := by
        rcases List.mem_cons.mp hb with rfl | hb
        · -- nothing in the list is before its head
          rcases List.mem_cons.mp ha with rfl | ha
          · omega
          · have := hx a ha
            omega
        · exact hb
      rcases List.mem_cons.mp ha with rfl | ha
      · cases rest with
        | nil => exact absurd hbrest List.not_mem_nil
        | cons y rest =>
            obtain ⟨hay, -⟩ := List.isChain_cons_cons.mp hchain
            have hlt := hx y List.mem_cons_self
            rcases List.mem_cons.mp hbrest with rfl | hb
            · exact hay
            · have := (List.pairwise_cons.mp hrest).1 b hb
              have := hnone y (by simp)
              omega
      · exact ih hchain.tail hrest ha hbrest fun c hc => hnone c (List.mem_cons_of_mem x hc)

/-- In a list of rising positions all samples but the last are before the last. -/
theorem lt_or_eq_of_getLast? (hrising : cs.Pairwise fun a b => a.2 < b.2)
    (hlast : cs.getLast? = some last) {c : Sample × Nat} (hc : c ∈ cs) :
    c.2 < last.2 ∨ c = last := by
  obtain ⟨init, rfl⟩ := List.getLast?_eq_some_iff.mp hlast
  rcases List.mem_append.mp hc with hinit | htop
  · exact .inl ((List.pairwise_append.mp hrising).2.2 c hinit last (List.mem_singleton_self last))
  · exact .inr (List.mem_singleton.mp htop)

/-! ## When the last sample is added -/

/-- Adding the last sample changes nothing before the last two. -/
theorem dropLast_withLast (cap : Nat) (kept : List (Sample × Nat)) (last : Sample × Nat) :
    (withLast cap kept last).dropLast <+: kept := by
  unfold withLast
  split
  · exact List.dropLast_prefix kept
  · rw [List.dropLast_concat]
    split
    · exact List.dropLast_prefix kept
    · exact List.prefix_rfl

/-- The candidates of a history whose last sample is `last`, no more of them than `cap`. -/
structure Candidates (cap : Nat) (last : Sample × Nat) (cs : List (Sample × Nat)) : Prop where
  rising : cs.Pairwise fun a b => a.2 < b.2
  le_last : ∀ c ∈ cs, c.2 < last.2 ∨ c = last
  length_le : cs.length ≤ cap

/--
At each candidate a similar sample is shown, unless the last sample took the place of this very
candidate, the last of them, at the cap and with none dropped.
-/
theorem showsAt_withLast {cap : Nat} (hthreshold : ¬threshold < 0)
    (h : Candidates cap last cs) {c : Sample × Nat} (hc : c ∈ cs) :
    (∃ p, ShowsAt (withLast cap (kept threshold cs) last) c.2 p ∧ Similar threshold p.1 c.1) ∨
      (cs.getLast? = some c ∧ kept threshold cs = cs ∧
        (withLast cap (kept threshold cs) last).length = cap) := by
  obtain ⟨p, hshows, hsimilar⟩ := showsAt_kept hthreshold h.rising hc
  unfold withLast
  split
  · exact .inl ⟨p, hshows, hsimilar⟩
  · split
    · rename_i hnot hfull
      -- no candidate was dropped, for there are no more than the cap
      have hall : kept threshold cs = cs :=
        (kept_sublist threshold cs).eq_of_length_le (h.length_le.trans hfull)
      rw [hall] at hfull hshows ⊢
      have hne : cs ≠ [] := List.ne_nil_of_mem hc
      obtain ⟨init, top, rfl⟩ : ∃ init top, cs = init ++ [top] :=
        ⟨_, _, (List.dropLast_append_getLast hne).symm⟩
      rw [List.dropLast_concat]
      rcases List.mem_append.mp hc with hinit | htop
      · have hlt : c.2 < top.2 :=
          (List.pairwise_append.mp h.rising).2.2 c hinit top (List.mem_singleton_self top)
        have hle : c.2 < last.2 := by
          rcases h.le_last top (by simp) with hlast | rfl
          · omega
          · exact hlt
        exact .inl ⟨p, (hshows.of_concat hlt).concat hle, hsimilar⟩
      · obtain rfl := List.mem_singleton.mp htop
        refine .inr ⟨by simp, rfl, ?_⟩
        have hlength := h.length_le
        rw [List.length_append, List.length_singleton] at hlength hfull ⊢
        omega
    · rcases h.le_last c hc with hlt | rfl
      · exact .inl ⟨p, hshows.concat hlt, hsimilar⟩
      · exact .inl ⟨c, showsAt_self (by simp), similar_self hthreshold c.1⟩

/-! ## Thinning -/

theorem mem_candidates_iff {stride : Nat} {s : Sample} :
    (s, i) ∈ candidates stride samples ↔ samples[i]? = some s ∧ stride ∣ i := by
  unfold candidates
  rw [List.mem_filter, List.mem_zipIdx_iff_getElem?, Nat.dvd_iff_mod_eq_zero, beq_iff_eq]

theorem pairwise_candidates (stride : Nat) (samples : List Sample) :
    (candidates stride samples).Pairwise fun a b => a.2 < b.2 :=
  (pairwise_zipIdx samples).sublist (candidates_sublist stride samples)

theorem candidates_of_history {cap : Nat} (hcap : 0 < cap)
    (hlast : samples.zipIdx.getLast? = some last) :
    Candidates cap last (candidates (stride samples.length cap) samples) where
  rising := pairwise_candidates _ samples
  le_last c hc :=
    lt_or_eq_of_getLast? (pairwise_zipIdx samples) hlast ((candidates_sublist _ samples).subset hc)
  length_le := by
    refine length_candidates_le hcap ?_
    rintro rfl
    cases hlast

/-- There is one sample at each position. -/
theorem eq_of_position {a b : Sample × Nat} (ha : a ∈ samples.zipIdx) (hb : b ∈ samples.zipIdx)
    (h : a.2 = b.2) : a = b := by
  have hsample := (List.mem_zipIdx_iff_getElem?.mp ha).symm
  rw [h, List.mem_zipIdx_iff_getElem?.mp hb] at hsample
  exact Prod.ext (Option.some.inj hsample) h

/--
The last sample has taken the place of the candidate at position `i`. That is the last candidate,
the chart is full, and no other one was dropped, for each differs from the one a stride before.
-/
structure Displaced (cap stride : Nat) (threshold : Single) (samples : List Sample)
    (left : List (Sample × Nat)) (i : Nat) : Prop where
  last_candidate : samples.length ≤ i + stride
  full : left.length = cap
  all_differ : ∀ j a b, stride ∣ j → samples[j]? = some a → samples[j + stride]? = some b →
    ¬Similar threshold a b

/-- Where no other candidate comes behind one, less than a stride of samples does. -/
theorem length_le_of_last_candidate {stride : Nat} (hstride : 0 < stride) {c : Sample × Nat}
    (hlast : (candidates stride samples).getLast? = some c) : samples.length ≤ c.2 + stride := by
  have hc : stride ∣ c.2 := (mem_candidates_iff.mp (List.mem_of_getLast? hlast)).2
  by_contra hlong
  -- the next stride would be a candidate as well
  have hlt : c.2 + stride < samples.length := Nat.not_le.mp hlong
  have hnext : (samples[c.2 + stride], c.2 + stride) ∈ candidates stride samples :=
    mem_candidates_iff.mpr ⟨List.getElem?_eq_getElem hlt, Nat.dvd_add_self_right.mpr hc⟩
  rcases lt_or_eq_of_getLast? (pairwise_candidates stride samples) hlast hnext with hbefore | heq
  · dsimp only at hbefore
    omega
  · have hposition := congrArg Prod.snd heq
    dsimp only at hposition
    omega

/-- When all candidates are kept, the one with no other behind it can be displaced. -/
theorem displaced_of_kept_eq {cap stride : Nat} (hstride : 0 < stride) {c : Sample × Nat}
    (hlast : (candidates stride samples).getLast? = some c)
    (hall : kept threshold (candidates stride samples) = candidates stride samples)
    (hfull : left.length = cap) : Displaced cap stride threshold samples left c.2 where
  last_candidate := length_le_of_last_candidate hstride hlast
  full := hfull
  all_differ := by
    intro j a b hj ha hb
    have hchain := isChain_kept threshold (candidates stride samples)
    rw [hall] at hchain
    refine rel_of_isChain (a := (a, j)) (b := (b, j + stride)) hchain
      (pairwise_candidates stride samples)
      (mem_candidates_iff.mpr ⟨ha, hj⟩)
      (mem_candidates_iff.mpr ⟨hb, Nat.dvd_add_self_right.mpr hj⟩)
      (Nat.lt_add_of_pos_right hstride) ?_
    intro q hq
    rcases Nat.lt_or_ge j q.2 with hlt | hge
    · -- what two multiples of the stride are apart is one too
      have hdvd := Nat.dvd_sub (mem_candidates_iff.mp hq).2 hj
      have hle := Nat.le_of_dvd (Nat.sub_pos_of_lt hlt) hdvd
      exact .inr (by dsimp only; omega)
    · exact .inl hge

/-- What differs from the sample shown just before it is left, if a similar sample is shown. -/
theorem mem_of_not_similar (hsub : left.Sublist samples.zipIdx) {q : Sample × Nat} {s : Sample}
    (hs : samples[i + 1]? = some s) (hq : ShowsAt left (i + 1) q)
    (hsimilar : Similar threshold q.1 s)
    (hp : ShowsAt left i p) (hdiffers : ¬Similar threshold p.1 s) : (s, i + 1) ∈ left := by
  have hzip := hsub.subset hq.mem
  by_cases hhere : q.2 = i + 1
  · have heq : q = (s, i + 1) :=
      eq_of_position hzip (List.mem_zipIdx_iff_getElem?.mpr hs) hhere
    rw [← heq]
    exact hq.mem
  · -- it would be the one shown just before
    have hle := hq.le
    have hqp := hp.last q hq.mem (by omega)
    have hpq := hq.last p hp.mem (Nat.le_succ_of_le hp.le)
    rw [eq_of_position hzip (hsub.subset hp.mem) (Nat.le_antisymm hqp hpq)] at hsimilar
    exact absurd hsimilar hdiffers

theorem showsAt_selection {maxPoints : Nat} (hlong : cap maxPoints < samples.length)
    (hthreshold : ¬threshold < 0) (hlast : samples.zipIdx.getLast? = some last) {s : Sample}
    (hi : stride samples.length (cap maxPoints) ∣ i) (hs : samples[i]? = some s) :
    (∃ p, ShowsAt (selection maxPoints threshold samples last) i p ∧ Similar threshold p.1 s) ∨
      Displaced (cap maxPoints) (stride samples.length (cap maxPoints)) threshold samples
        (selection maxPoints threshold samples last) i := by
  have hcap : 0 < cap maxPoints := Nat.zero_lt_two.trans_le (two_le_cap maxPoints)
  have hne : samples ≠ [] := List.ne_nil_of_length_pos (Nat.zero_lt_of_lt hlong)
  have hcandidates := candidates_of_history hcap hlast
  rcases showsAt_withLast hthreshold hcandidates (mem_candidates_iff.mpr ⟨hs, hi⟩) with
    hshows | ⟨hend, hall, hfull⟩
  · exact .inl hshows
  · exact .inr (displaced_of_kept_eq (stride_pos hcap hne) hend hall hfull)

theorem isChain_dropLast_selection (maxPoints : Nat) (threshold : Single) (samples : List Sample)
    (last : Sample × Nat) :
    (selection maxPoints threshold samples last).dropLast.IsChain
      fun a b => ¬Similar threshold a.1 b.1 := by
  have hchain := isChain_kept threshold
    (candidates (stride samples.length (cap maxPoints)) samples)
  obtain ⟨rest, hrest⟩ := dropLast_withLast (cap maxPoints) (kept threshold
    (candidates (stride samples.length (cap maxPoints)) samples)) last
  rw [← hrest] at hchain
  exact hchain.left_of_append

/--
**Thinning loses no significant transition at its stride.**

Let a history be longer than the cap and the threshold not negative. At every multiple of the stride
the last sample left up to there is similar to the one there: neither temperature is farther off
than the threshold or there in only one of them, and mode and heater are the same. So a sample at a
stride that differs from the last one left before it is left itself, even if no two neighbours
differ. The one exception is the last stride, and only at the cap, when every stride differs from
the one before. The other way round, each sample left differs from the one left before it, the last
one apart.
-/
theorem transitions_kept (maxPoints : Nat) (threshold : Single) (samples : List Sample)
    (hlong : cap maxPoints < samples.length) (hthreshold : ¬threshold < 0) :
    let stride := samples.length ⌈/⌉ cap maxPoints
    ∃ left : List (Sample × Nat), left.Sublist samples.zipIdx ∧
      thin maxPoints threshold samples = left.map Prod.fst ∧
      (∀ i s, stride ∣ i → samples[i]? = some s →
        (∃ p, ShowsAt left i p ∧ Similar threshold p.1 s) ∨
          Displaced (cap maxPoints) stride threshold samples left i) ∧
      (∀ i s p, stride ∣ i + 1 → samples[i + 1]? = some s → ShowsAt left i p →
        ¬Similar threshold p.1 s →
          (s, i + 1) ∈ left ∨ Displaced (cap maxPoints) stride threshold samples left (i + 1)) ∧
      (thin maxPoints threshold samples).dropLast.IsChain fun a b => ¬Similar threshold a b := by
  intro step
  have hne : samples ≠ [] := List.ne_nil_of_length_pos (Nat.zero_lt_of_lt hlong)
  obtain ⟨last, hlast, -⟩ := Option.map_eq_some_iff.mp (getLast?_zipIdx hne)
  have hthin := thin_of_lt hlong hlast threshold
  have hsub := selection_sublist maxPoints threshold hlast
  have hstep : step = stride samples.length (cap maxPoints) :=
    Nat.ceilDiv_eq_add_pred_div samples.length (cap maxPoints)
  rw [hstep]
  refine ⟨_, hsub, hthin, fun i s => showsAt_selection hlong hthreshold hlast, ?_, ?_⟩
  · intro i s p hi hs hp hdiffers
    rcases showsAt_selection hlong hthreshold hlast hi hs with ⟨q, hq, hsimilar⟩ | hdisplaced
    · exact .inl (mem_of_not_similar hsub hs hq hsimilar hp hdiffers)
    · exact .inr hdisplaced
  · rw [hthin, ← List.map_dropLast, List.isChain_map]
    exact isChain_dropLast_selection maxPoints threshold samples last

/-- A drift of a tenth of a degree a sample: the change since the start is kept at position six. -/
theorem transitions_kept_drift :
    let drift (i : Nat) : Sample := { timestamp := .ofNat i, beanTemp := some (.ofNat i / 10) }
    let samples := (List.range 11).map drift
    cap 4 < samples.length ∧ ¬(0.5 : Single) < 0 ∧
      ∃ left, thin 4 0.5 samples = left.map Prod.fst ∧ left.length = 3 ∧
        (∃ p, ShowsAt left 6 p ∧ Similar 0.5 p.1 (drift 6)) ∧
        (∃ p, ShowsAt left 9 p ∧ Similar 0.5 p.1 (drift 9)) := by
  intro drift samples
  have hlong : cap 4 < samples.length := by decide
  have hthreshold : ¬(0.5 : Single) < 0 := by decide +kernel
  obtain ⟨left, -, hthin, hshown, -, -⟩ := transitions_kept 4 0.5 samples hlong hthreshold
  have hlength : left.length = 3 := by
    have hthree : (thin 4 0.5 samples).length = 3 := by decide +kernel
    rwa [hthin, List.length_map] at hthree
  -- three samples are less than the cap, so none was displaced
  have hplace : ∀ i, ¬Displaced (cap 4) (samples.length ⌈/⌉ cap 4) 0.5 samples left i := by
    intro i h
    have hfull := h.full
    rw [hlength] at hfull
    exact absurd hfull (by decide)
  refine ⟨hlong, hthreshold, left, hthin, hlength, ?_, ?_⟩
  · exact (hshown 6 (drift 6) (by decide) rfl).resolve_right (hplace 6)
  · exact (hshown 9 (drift 9) (by decide) rfl).resolve_right (hplace 9)

end RoastTelemetry.Thinning
