import RoastTelemetry.Thinning
import Mathlib.Data.Int.CardIntervalMod

/-!
# Which samples thinning keeps

Thinning carries each sample together with its position, so whatever it makes on the way is a
sublist of the positioned history: nothing can be invented, repeated or moved. What is left to see
is that both ends are in it and that it is short enough. The first sample is the first candidate.
The last one is added at the end, and what makes room for it is never the first one, because a cap
has room for two. A stride of `⌈count / cap⌉` meets at most `cap` positions.
-/

namespace RoastTelemetry.Thinning

/-- A part of a history: the samples at rising positions, from its first to its last. -/
structure Spans (positions : List Nat) (samples part : List Sample) : Prop where
  /-- The positions rise strictly. -/
  rising : positions.Pairwise (· < ·)
  /-- The first one is that of the first sample. -/
  first : positions.head? = some 0
  /-- The last one is that of the last sample. -/
  last : positions.getLast? = some (samples.length - 1)
  /-- The part has the samples there, and nothing else. -/
  picked : part.map some = positions.map (samples[·]?)

variable {threshold : Single} {samples : List Sample} {picked : List (Sample × Nat)}

/-! ## Parts of a positioned history -/

theorem pairwise_zipIdx (samples : List Sample) :
    samples.zipIdx.Pairwise fun a b => a.2 < b.2 := by
  have h : (samples.zipIdx.map Prod.snd).Pairwise (· < ·) := by
    rw [List.zipIdx_map_snd, ← List.range_eq_range']
    exact List.pairwise_lt_range
  exact List.pairwise_map.mp h

theorem head?_zipIdx (hne : samples ≠ []) :
    samples.zipIdx.head?.map Prod.snd = some 0 := by
  cases samples with
  | nil => exact absurd rfl hne
  | cons s rest => rfl

theorem getLast?_zipIdx (hne : samples ≠ []) :
    samples.zipIdx.getLast?.map Prod.snd = some (samples.length - 1) := by
  rw [← List.getLast?_map, List.zipIdx_map_snd, ← List.range_eq_range', List.getLast?_range,
    if_neg (by simpa using hne)]

/-- A sublist of the positioned history with both of its ends is a part of it. -/
theorem spans_of_sublist (hsub : picked.Sublist samples.zipIdx) (hne : samples ≠ [])
    (hhead : picked.head? = samples.zipIdx.head?)
    (hlast : picked.getLast? = samples.zipIdx.getLast?) :
    Spans (picked.map Prod.snd) samples (picked.map Prod.fst) where
  rising := List.pairwise_map.mpr ((pairwise_zipIdx samples).sublist hsub)
  first := by rw [List.head?_map, hhead, head?_zipIdx hne]
  last := by rw [List.getLast?_map, hlast, getLast?_zipIdx hne]
  picked := by
    rw [List.map_map, List.map_map]
    refine List.map_congr_left ?_
    intro q hq
    exact (List.mem_zipIdx_iff_getElem?.mp (hsub.subset hq)).symm

/-! ## Candidates -/

theorem candidates_sublist (stride : Nat) (samples : List Sample) :
    (candidates stride samples).Sublist samples.zipIdx := List.filter_sublist

theorem head?_candidates (stride : Nat) (samples : List Sample) :
    (candidates stride samples).head? = samples.zipIdx.head? := by
  cases samples with
  | nil => rfl
  | cons s rest => simp [candidates, List.zipIdx_cons]

theorem two_le_cap (maxPoints : Nat) : 2 ≤ cap maxPoints := Nat.le_max_right _ _

theorem le_cap_mul_stride {cap : Nat} (hcap : 0 < cap) (count : Nat) :
    count ≤ cap * stride count cap := by
  have hdiv := Nat.div_add_mod (count + cap - 1) cap
  have hmod := Nat.mod_lt (count + cap - 1) hcap
  unfold stride
  omega

/-- There are as many candidates as multiples of the stride. -/
theorem length_candidates (stride : Nat) (samples : List Sample) :
    (candidates stride samples).length = samples.length.count fun i => i ≡ 0 [MOD stride] := by
  have hcount : (candidates stride samples).length =
      (samples.zipIdx.map Prod.snd).countP (· % stride == 0) := by
    rw [List.countP_map, List.countP_eq_length_filter]
    rfl
  rw [hcount, List.zipIdx_map_snd, ← List.range_eq_range', Nat.count_eq_card_filter_range,
    List.countP_eq_length_filter]
  rfl

theorem stride_pos {cap : Nat} (hcap : 0 < cap) (hne : samples ≠ []) :
    0 < stride samples.length cap := by
  have hle := le_cap_mul_stride hcap samples.length
  refine Nat.pos_of_ne_zero fun h0 => ?_
  rw [h0, Nat.mul_zero] at hle
  exact hne (List.eq_nil_of_length_eq_zero (Nat.le_zero.mp hle))

theorem length_candidates_le {cap : Nat} (hcap : 0 < cap) (hne : samples ≠ []) :
    (candidates (stride samples.length cap) samples).length ≤ cap := by
  have hle := le_cap_mul_stride hcap samples.length
  have hpos := stride_pos hcap hne
  rw [length_candidates, Nat.count_modEq_card _ hpos, Nat.zero_mod]
  generalize stride samples.length cap = k at *
  have hdiv := Nat.div_add_mod samples.length k
  rw [Nat.mul_comm] at hle
  split
  · -- a part of a stride is left, so whole ones are fewer than `cap`
    have hlt : k * (samples.length / k) < k * cap := by omega
    exact Nat.lt_of_mul_lt_mul_left hlt
  · have hfits : k * (samples.length / k) ≤ k * cap := by omega
    exact Nat.le_of_mul_le_mul_left hfits hpos

/-! ## What is kept of them -/

theorem keepFrom_sublist (threshold : Single) (last : Sample) (cs : List (Sample × Nat)) :
    (keepFrom threshold last cs).Sublist cs := by
  induction cs generalizing last with
  | nil => exact List.Sublist.slnil
  | cons c rest ih =>
      unfold keepFrom
      split
      · exact (ih c.1).cons_cons c
      · exact (ih last).cons c

theorem kept_sublist (threshold : Single) (cs : List (Sample × Nat)) :
    (kept threshold cs).Sublist cs := by
  cases cs with
  | nil => exact List.Sublist.slnil
  | cons c rest => exact (keepFrom_sublist threshold c.1 rest).cons_cons c

theorem head?_kept (threshold : Single) (cs : List (Sample × Nat)) :
    (kept threshold cs).head? = cs.head? := by
  cases cs with
  | nil => rfl
  | cons c rest => rfl

/-! ## The last sample -/

theorem length_withLast_le {cap : Nat} (hcap : 0 < cap) {kept : List (Sample × Nat)}
    (hkept : kept.length ≤ cap) (last : Sample × Nat) : (withLast cap kept last).length ≤ cap := by
  unfold withLast
  split
  · exact hkept
  · rw [List.length_append, List.length_singleton]
    split
    · rw [List.length_dropLast]
      omega
    · omega

/-- The last sample pushes out another one only if there are two. -/
theorem head?_withLast {cap : Nat} (hcap : 2 ≤ cap) {kept : List (Sample × Nat)}
    (hne : kept ≠ []) (last : Sample × Nat) : (withLast cap kept last).head? = kept.head? := by
  unfold withLast
  split
  · rfl
  · cases kept with
    | nil => exact absurd rfl hne
    | cons first rest =>
        split
        · rename_i hfull
          cases rest with
          | nil =>
              rw [List.length_singleton] at hfull
              omega
          | cons second rest => rfl
        · rfl

/-- What ends before the last sample stays a sublist of the history when that one is added. -/
theorem sublist_withLast {kept init : List (Sample × Nat)} {last : Sample × Nat} (cap : Nat)
    (hsub : kept.Sublist (init ++ [last])) :
    (withLast cap kept last).Sublist (init ++ [last]) := by
  unfold withLast
  split
  · exact hsub
  · rename_i hlast
    refine List.Sublist.append ?_ (List.Sublist.refl _)
    -- its last one is not the history's, so all of it comes before
    have hinit : kept.Sublist init := by
      obtain ⟨front, back, rfl, hfront, hback⟩ := List.sublist_append_iff.mp hsub
      rcases List.sublist_singleton.mp hback with rfl | rfl
      · rwa [List.append_nil]
      · exact absurd (by simp) hlast
    split
    · exact (List.dropLast_sublist kept).trans hinit
    · exact hinit

theorem getLast?_withLast {kept : List (Sample × Nat)} {last : Sample × Nat} (cap : Nat)
    (hsub : kept.Sublist samples.zipIdx) (hlast : samples.zipIdx.getLast? = some last) :
    (withLast cap kept last).getLast? = some last := by
  unfold withLast
  split
  · rename_i hsame
    obtain ⟨q, hq, hposition⟩ := Option.map_eq_some_iff.mp hsame
    -- one sample stands at each position
    have hmem := List.mem_zipIdx_iff_getElem?.mp (hsub.subset (List.mem_of_getLast? hq))
    have hmem' := List.mem_zipIdx_iff_getElem?.mp (List.mem_of_getLast? hlast)
    rw [hposition, hmem'] at hmem
    rw [hq, Prod.ext (Option.some.inj hmem).symm hposition]
  · rw [List.getLast?_append, List.getLast?_singleton]
    rfl

/-! ## Thinning -/

theorem thin_of_length_le {maxPoints : Nat} (h : samples.length ≤ cap maxPoints)
    (threshold : Single) : thin maxPoints threshold samples = samples := by
  unfold thin
  split
  · rename_i hnone
    rw [List.getLast?_eq_none_iff, List.zipIdx_eq_nil_iff] at hnone
    exact hnone.symm
  · rw [if_pos h]

/-- The positioned samples that are left of a history longer than the cap. -/
def selection (maxPoints : Nat) (threshold : Single) (samples : List Sample)
    (last : Sample × Nat) : List (Sample × Nat) :=
  withLast (cap maxPoints)
    (kept threshold (candidates (stride samples.length (cap maxPoints)) samples)) last

theorem thin_of_lt {maxPoints : Nat} {last : Sample × Nat} (h : cap maxPoints < samples.length)
    (hlast : samples.zipIdx.getLast? = some last) (threshold : Single) :
    thin maxPoints threshold samples =
      (selection maxPoints threshold samples last).map Prod.fst := by
  unfold thin
  rw [hlast]
  dsimp only
  rw [if_neg (Nat.not_le.mpr h)]
  rfl

theorem selection_sublist {last : Sample × Nat} (maxPoints : Nat) (threshold : Single)
    (hlast : samples.zipIdx.getLast? = some last) :
    (selection maxPoints threshold samples last).Sublist samples.zipIdx := by
  obtain ⟨init, hinit⟩ := List.getLast?_eq_some_iff.mp hlast
  have hkept := (kept_sublist threshold _).trans
    (candidates_sublist (stride samples.length (cap maxPoints)) samples)
  rw [hinit] at hkept ⊢
  exact sublist_withLast _ hkept

theorem exists_spans_selection {maxPoints : Nat} {last : Sample × Nat} (hne : samples ≠ [])
    (hlast : samples.zipIdx.getLast? = some last) (threshold : Single) :
    (selection maxPoints threshold samples last).length ≤ cap maxPoints ∧
      Spans ((selection maxPoints threshold samples last).map Prod.snd) samples
        ((selection maxPoints threshold samples last).map Prod.fst) := by
  have hcap := two_le_cap maxPoints
  have hkept := kept_sublist threshold (candidates (stride samples.length (cap maxPoints)) samples)
  have hsub := hkept.trans (candidates_sublist _ samples)
  have hhead := (head?_kept threshold _).trans
    (head?_candidates (stride samples.length (cap maxPoints)) samples)
  constructor
  · exact length_withLast_le (by omega)
      (hkept.length_le.trans (length_candidates_le (by omega) hne)) last
  · refine spans_of_sublist (selection_sublist maxPoints threshold hlast) hne ?_ ?_
    · have hfirst : kept threshold (candidates (stride samples.length (cap maxPoints)) samples)
          ≠ [] := by
        intro hnil
        have h0 := head?_zipIdx hne
        rw [← hhead, hnil] at h0
        cases h0
      exact (head?_withLast hcap hfirst last).trans hhead
    · exact (getLast?_withLast _ hsub hlast).trans hlast.symm

theorem length_thin_le (maxPoints : Nat) (threshold : Single) (samples : List Sample) :
    (thin maxPoints threshold samples).length ≤ cap maxPoints := by
  rcases Nat.lt_or_ge (cap maxPoints) samples.length with hlong | hshort
  · have hne : samples ≠ [] := List.ne_nil_of_length_pos (Nat.zero_lt_of_lt hlong)
    obtain ⟨last, hlast, -⟩ := Option.map_eq_some_iff.mp (getLast?_zipIdx hne)
    rw [thin_of_lt hlong hlast, List.length_map]
    exact (exists_spans_selection hne hlast threshold).1
  · rw [thin_of_length_le hshort]
    exact hshort

/--
**Thinning keeps both ends, within its cap.**

A history that fits the cap is left alone. Of a longer one samples at rising positions are left, at
most as many as the cap allows, the first and the last one among them. In both cases what is left
fits the cap, so thinning it once more changes nothing, with whatever threshold. All this holds for
every cap, those that have to be raised included, and for every threshold, NaN and infinities
included.
-/
theorem thin_keeps_ends (maxPoints : Nat) (threshold : Single) (samples : List Sample) :
    (samples.length ≤ cap maxPoints → thin maxPoints threshold samples = samples) ∧
      (cap maxPoints < samples.length →
        (thin maxPoints threshold samples).length ≤ cap maxPoints ∧
          ∃ positions, Spans positions samples (thin maxPoints threshold samples)) ∧
      ∀ threshold', thin maxPoints threshold' (thin maxPoints threshold samples) =
        thin maxPoints threshold samples := by
  refine ⟨fun h => thin_of_length_le h threshold, ?_, ?_⟩
  · intro hlong
    have hne : samples ≠ [] := List.ne_nil_of_length_pos (Nat.zero_lt_of_lt hlong)
    obtain ⟨last, hlast, -⟩ := Option.map_eq_some_iff.mp (getLast?_zipIdx hne)
    refine ⟨length_thin_le maxPoints threshold samples,
      (selection maxPoints threshold samples last).map Prod.snd, ?_⟩
    rw [thin_of_lt hlong hlast]
    exact (exists_spans_selection hne hlast threshold).2
  · exact thin_of_length_le (length_thin_le maxPoints threshold samples)

/-- The last sample takes the place of the one at position nine, which was kept before it. -/
example :
    let steep (i : Nat) : Sample := { timestamp := .ofNat i, beanTemp := some (.ofNat (10 * i)) }
    (thin 4 0.5 ((List.range 11).map steep)).map (·.timestamp) = [0, 3, 6, 10] := by
  decide +kernel

end RoastTelemetry.Thinning
