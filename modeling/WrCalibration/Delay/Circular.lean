import WrCalibration.Common.Cyclic
import WrCalibration.Delay.Correlation
import Mathlib.Algebra.Order.Ring.Rat

/-!
# What the circular correlation computes

The FFT branch convolves with the reversed second signal, folds the
linear lags into one period and rolls the period into place. Each stage
has its lemma here: `getD_fftconvolve_reverse` names the lag of a
convolution entry, `foldedSum_eq_circularSum` closes the period, and
`correlateCircular_fft` is the function as a whole. What the axis says
of the result is read off it for both parities of the length.
-/

namespace WrCalibration

namespace Delay

open Python Finset Cyclic

variable {s1 s2 : List ℚ} {n : ℕ}

/-! ## Reading signals outside their samples -/

theorem zeroExt_natCast (s : List ℚ) (k : ℕ) : zeroExt s k = s.getD k 0 := by
  simp [zeroExt]

theorem zeroExt_of_neg {i : ℤ} (h : i < 0) : zeroExt s1 i = 0 := by
  rw [zeroExt, if_neg (by omega)]

theorem zeroExt_of_length_le {i : ℤ} (h : (s1.length : ℤ) ≤ i) : zeroExt s1 i = 0 := by
  rw [zeroExt, if_pos (by omega), List.getD_eq_default _ _ (by omega)]

/-- The reversed signal, read as the signal itself. -/
theorem getD_reverse (s : List ℚ) (j : ℕ) :
    s.reverse.getD j 0 = zeroExt s (s.length - 1 - j) := by
  rcases Nat.lt_or_ge j s.length with hj | hj
  · rw [List.getD_eq_getElem _ _ (by simpa using hj), List.getElem_reverse,
      show (s.length : ℤ) - 1 - j = ((s.length - 1 - j : ℕ) : ℤ) by omega, zeroExt_natCast,
      List.getD_eq_getElem _ _ (by omega)]
  · rw [List.getD_eq_default _ _ (by simpa using hj), zeroExt_of_neg (by omega)]

/-- A signal continued with its own period. -/
def cyc (s : List ℚ) (i : ℤ) : ℚ := s.getD (i % s.length).toNat 0

theorem cyc_periodic (s : List ℚ) : Function.Periodic (cyc s) s.length := fun i => by
  simp [cyc]

theorem cyc_natCast {k : ℕ} (h : k < s1.length) : cyc s1 k = s1.getD k 0 := by
  rw [cyc, Int.emod_eq_of_lt (by omega) (by omega), Int.toNat_natCast]

/-- Within one period of its samples a signal continued periodically is
the sum of the two copies that can reach there. -/
theorem cyc_eq_zeroExt_add {i : ℤ} (hlo : -(s1.length : ℤ) ≤ i) (hhi : i < s1.length) :
    cyc s1 i = zeroExt s1 i + zeroExt s1 (i + s1.length) := by
  rcases lt_or_ge i 0 with hi | hi
  · rw [zeroExt_of_neg hi, zero_add, ← cyc_periodic s1 i]
    obtain ⟨k, hk⟩ := Int.eq_ofNat_of_zero_le (show 0 ≤ i + s1.length by omega)
    rw [hk, cyc_natCast (by omega)]
    exact (zeroExt_natCast s1 k).symm
  · rw [zeroExt_of_length_le (show (s1.length : ℤ) ≤ i + s1.length by omega), add_zero]
    obtain ⟨k, rfl⟩ := Int.eq_ofNat_of_zero_le hi
    rw [cyc_natCast (by omega), zeroExt_natCast]

/-! ## The linear correlation at a lag -/

/-- The linear cross-correlation at lag `l`. -/
def linearSum (s1 s2 : List ℚ) (l : ℤ) : ℚ :=
  ∑ i ∈ range s1.length, s1.getD i 0 * zeroExt s2 (i - l)

/-- Below the length of the second signal no samples meet. -/
theorem linearSum_of_le_neg {l : ℤ} (h : l ≤ -(s2.length : ℤ)) : linearSum s1 s2 l = 0 :=
  sum_eq_zero fun i _ => by rw [zeroExt_of_length_le (by omega), mul_zero]

theorem length_fftconvolve (h1 : s1 ≠ []) (h2 : s2 ≠ []) :
    (fftconvolve s1 s2).length = s1.length + s2.length - 1 := by
  simp [fftconvolve, h1, h2]

/-- **An entry of the convolution with the reversed signal is the linear
correlation** at the entry's distance from the zero lag. -/
theorem getD_fftconvolve_reverse (h1 : s1 ≠ []) (h2 : s2 ≠ []) {k : ℕ}
    (hk : k < s1.length + s2.length - 1) :
    (fftconvolve s1 s2.reverse).getD k 0 = linearSum s1 s2 (k - (s2.length - 1)) := by
  have hterm : ∀ i ∈ range (k + 1), s1.getD i 0 * s2.reverse.getD (k - i) 0 =
      s1.getD i 0 * zeroExt s2 (i - (k - (s2.length - 1))) := by
    intro i hi
    have := mem_range.1 hi
    rw [getD_reverse]
    congr 2
    omega
  -- both sums are over the indices where neither factor is out of range
  calc (fftconvolve s1 s2.reverse).getD k 0
      = ∑ i ∈ range (k + 1), s1.getD i 0 * s2.reverse.getD (k - i) 0 := by
        simp [fftconvolve, h1, h2, hk]
    _ = ∑ i ∈ range (k + 1), s1.getD i 0 * zeroExt s2 (i - (k - (s2.length - 1))) :=
        sum_congr rfl hterm
    _ = ∑ i ∈ range (k + 1 + s1.length), s1.getD i 0 * zeroExt s2 (i - (k - (s2.length - 1))) := by
        refine sum_subset (range_mono (by omega)) fun i _ hi => ?_
        rw [mem_range, not_lt] at hi
        rw [zeroExt_of_length_le (by omega), mul_zero]
    _ = linearSum s1 s2 (k - (s2.length - 1)) := by
        refine (sum_subset (range_mono (by omega)) fun i _ hi => ?_).symm
        rw [mem_range, not_lt] at hi
        rw [List.getD_eq_default _ _ hi, zero_mul]

/-! ## Folding into one period -/

/-- What the two padded slices add up to at index `j`. The first slice
ends at the end of the array, so for a first signal shorter than the
second its lags are moved by the difference. -/
def foldedSum (s1 s2 : List ℚ) (j : ℕ) : ℚ :=
  (if j < max s1.length s2.length - s1.length then 0
    else linearSum s1 s2 (j - (max s1.length s2.length - s1.length : ℕ))) +
  linearSum s1 s2 (j - (max s1.length s2.length : ℕ))

/-- The slice of the non-negative lags, padded in front. -/
theorem getD_before (h1 : s1 ≠ []) (h2 : s2 ≠ []) {j : ℕ} (hj : j < max s1.length s2.length) :
    (List.replicate (max s1.length s2.length - s1.length) 0 ++
      sliceFrom (fftconvolve s1 s2.reverse) (-(s1.length : ℤ))).getD j 0 =
    if j < max s1.length s2.length - s1.length then 0
      else linearSum s1 s2 (j - (max s1.length s2.length - s1.length : ℕ)) := by
  have hl1 : 0 < s1.length := List.length_pos_of_ne_nil h1
  have hl2 : 0 < s2.length := List.length_pos_of_ne_nil h2
  have hlen : (fftconvolve s1 s2.reverse).length = s1.length + s2.length - 1 := by
    rw [length_fftconvolve h1 (by simpa using h2), List.length_reverse]
  rw [sliceFrom_neg hl1 (by omega), hlen]
  split
  · rename_i hlt
    rw [List.getD_append _ _ _ _ (by simpa using hlt), List.getD_replicate _ hlt]
  · rename_i hge
    rw [List.getD_append_right _ _ _ _ (by simpa using hge), List.length_replicate]
    have := getD_fftconvolve_reverse h1 h2
      (k := s2.length - 1 + (j - (max s1.length s2.length - s1.length))) (by omega)
    simp only [List.getD_eq_getElem?_getD, List.getElem?_drop] at this ⊢
    rw [show s1.length + s2.length - 1 - s1.length +
      (j - (max s1.length s2.length - s1.length)) =
      s2.length - 1 + (j - (max s1.length s2.length - s1.length)) by omega, this]
    congr 1
    omega

/-- The slice of the negative lags, padded in front. -/
theorem getD_after (h1 : s1 ≠ []) (h2 : s2 ≠ []) {j : ℕ} (hj : j < max s1.length s2.length) :
    (List.replicate (max s1.length s2.length - s2.length + 1) 0 ++
      sliceTo (fftconvolve s1 s2.reverse) ((s2.length - 1 : ℕ) : ℤ)).getD j 0 =
    linearSum s1 s2 (j - (max s1.length s2.length : ℕ)) := by
  have hl1 : 0 < s1.length := List.length_pos_of_ne_nil h1
  have hl2 : 0 < s2.length := List.length_pos_of_ne_nil h2
  have hlen : (fftconvolve s1 s2.reverse).length = s1.length + s2.length - 1 := by
    rw [length_fftconvolve h1 (by simpa using h2), List.length_reverse]
  rw [sliceTo_natCast (by omega)]
  rcases Nat.lt_or_ge j (max s1.length s2.length - s2.length + 1) with hlt | hge
  · rw [List.getD_append _ _ _ _ (by simpa using hlt), List.getD_replicate _ hlt,
      linearSum_of_le_neg (by omega)]
  · rw [List.getD_append_right _ _ _ _ (by simpa using hge), List.length_replicate]
    have := getD_fftconvolve_reverse h1 h2
      (k := j - (max s1.length s2.length - s2.length + 1)) (by omega)
    simp only [List.getD_eq_getElem?_getD, List.getElem?_take] at this ⊢
    rw [if_pos (by omega), this]
    congr 1
    omega

/-- **The FFT branch, as a whole**: the folded period rolled by half its
length, on an axis of the same length. -/
theorem correlateCircular_eq (h1 : s1 ≠ []) (h2 : s2 ≠ []) :
    ∃ corr : List ℚ, corr.length = max s1.length s2.length ∧
      correlateCircular s1 s2 = .ok (arange (-(corr.length : ℤ) / 2) ((corr.length : ℤ) / 2),
        corr) ∧
      ∀ m < corr.length, corr.getD m 0 =
        foldedSum s1 s2 ((m + (corr.length + 1) / 2) % corr.length) := by
  have hl1 : 0 < s1.length := List.length_pos_of_ne_nil h1
  have hl2 : 0 < s2.length := List.length_pos_of_ne_nil h2
  have hlen : (fftconvolve s1 s2.reverse).length = s1.length + s2.length - 1 := by
    rw [length_fftconvolve h1 (by simpa using h2), List.length_reverse]
  set N := max s1.length s2.length with hN
  -- the two parts of the full correlation that are folded onto each other
  set before : List ℚ := List.replicate (N - s1.length) 0 ++
    sliceFrom (fftconvolve s1 s2.reverse) (-(s1.length : ℤ)) with hbefore
  set after : List ℚ := List.replicate (N - s2.length + 1) 0 ++
    sliceTo (fftconvolve s1 s2.reverse) ((s2.length - 1 : ℕ) : ℤ) with hafter
  have hbl : before.length = N := by
    rw [hbefore, sliceFrom_neg hl1 (by omega), hlen]
    simp only [List.length_append, List.length_replicate, List.length_drop, hlen]
    omega
  have hal : after.length = N := by
    rw [hafter, sliceTo_natCast (by omega)]
    simp only [List.length_append, List.length_replicate, List.length_take, hlen]
    omega
  refine ⟨fftshift (List.zipWith (· + ·) before after), by simp [hbl, hal], ?_, ?_⟩
  · have e1 : max (s1.length : ℤ) s2.length - s1.length = ((N - s1.length : ℕ) : ℤ) := by omega
    have e2 : max (s1.length : ℤ) s2.length - s2.length + 1 = ((N - s2.length + 1 : ℕ) : ℤ) := by
      omega
    have e3 : (s2.length : ℤ) - 1 = ((s2.length - 1 : ℕ) : ℤ) := by omega
    unfold correlateCircular
    simp only [e1, e2, e3, zeros_natCast, Bool.false_eq_true, if_false, bind, Except.bind,
      ← hbefore, ← hafter]
    rw [broadcast_of_length_eq _ (by rw [hbl, hal])]
    rfl
  · intro m hm
    have hzip : (List.zipWith (· + ·) before after).length = N := by simp [hbl, hal]
    rw [length_fftshift, hzip] at hm ⊢
    rw [getD_fftshift _ (by omega), hzip]
    have hmod := Nat.mod_lt (m + (N + 1) / 2) (show 0 < N by omega)
    have := getD_zipWith (· + ·) (hbl.trans hal.symm) (0 : ℚ) 0 ((m + (N + 1) / 2) % N)
    rw [add_zero] at this
    rw [this, hbefore, hafter, getD_before h1 h2 hmod, getD_after h1 h2 hmod, foldedSum]

/-! ## Signals of one length -/

/-- **The circular correlation of two signals** at lag `l`. -/
def circularSum (s1 s2 : List ℚ) (l : ℤ) : ℚ :=
  ∑ i ∈ range s1.length, s1.getD i 0 * cyc s2 (i - l)

/-- It is the correlation of the two signals continued periodically. -/
theorem circularSum_eq_circCorr (h1 : s1.length = n) (l : ℤ) :
    circularSum s1 s2 l = circCorr n (cyc s1) (cyc s2) l := by
  rw [circularSum, circCorr, h1]
  refine sum_congr rfl fun i hi => ?_
  rw [cyc_natCast (by rw [h1]; exact mem_range.1 hi)]

/-- The lag counts modulo the length. -/
theorem circularSum_congr (h1 : s1.length = n) (h2 : s2.length = n) {l l' : ℤ}
    (h : (n : ℤ) ∣ l - l') : circularSum s1 s2 l = circularSum s1 s2 l' := by
  rw [circularSum_eq_circCorr h1, circularSum_eq_circCorr h1]
  have hp := cyc_periodic s2
  rw [h2] at hp
  exact circCorr_congr hp h

/-- **Folding closes the period**: the two linear lags that meet at an
index make up the circular one. -/
theorem foldedSum_eq_circularSum (h1 : s1.length = n) (h2 : s2.length = n) {j : ℕ} (hj : j < n) :
    foldedSum s1 s2 j = circularSum s1 s2 j := by
  rw [foldedSum, h1, h2, max_self, Nat.sub_self, if_neg (by omega), linearSum, linearSum,
    circularSum, ← sum_add_distrib]
  refine sum_congr rfl fun i hi => ?_
  have := mem_range.1 hi
  rw [← mul_add, cyc_eq_zeroExt_add (by omega) (by omega), h2, Nat.cast_zero, sub_zero]
  congr 3
  omega

/-- **What the FFT branch returns for two signals of one length.** The
entry at index `m` is the circular correlation at lag `m` plus half the
length, rounded up. -/
theorem correlateCircular_fft (hn : 0 < n) (h1 : s1.length = n) (h2 : s2.length = n) :
    correlateCircular s1 s2 = .ok (arange (-(n : ℤ) / 2) ((n : ℤ) / 2),
      (List.range n).map fun m => circularSum s1 s2 (m + (n + 1) / 2 : ℕ)) := by
  obtain ⟨corr, hlen, hrun, hval⟩ := @correlateCircular_eq s1 s2
    (List.ne_nil_of_length_pos (by omega)) (List.ne_nil_of_length_pos (by omega))
  rw [h1, h2, max_self] at hlen
  rw [hrun, hlen]
  refine congrArg (fun c => Except.ok (_, c)) (List.ext_getElem (by simp [hlen]) fun m hm _ => ?_)
  have hv := hval m hm
  rw [List.getD_eq_getElem _ _ hm, hlen,
    foldedSum_eq_circularSum h1 h2 (Nat.mod_lt _ hn)] at hv
  rw [hv, List.getElem_map, List.getElem_range]
  refine circularSum_congr h1 h2 ?_
  have hdm := Nat.mod_add_div (m + (n + 1) / 2) n
  refine ⟨-((m + (n + 1) / 2) / n : ℕ), ?_⟩
  rw [mul_neg]
  omega

/-- The label of an axis of length `n` at index `m`. -/
theorem getD_axis {m : ℕ} (hm : m < n) :
    (arange (-(n : ℤ) / 2) ((n : ℤ) / 2)).getD m 0 = m - (n + 1) / 2 := by
  rw [getD_arange (by omega)]
  omega

/-- **For an even length the labels are the lags.** -/
theorem correlateCircular_even (hn : 0 < n) (heven : n % 2 = 0) (h1 : s1.length = n)
    (h2 : s2.length = n) :
    correlateCircular s1 s2 = .ok (arange (-(n : ℤ) / 2) ((n : ℤ) / 2),
      (arange (-(n : ℤ) / 2) ((n : ℤ) / 2)).map (circularSum s1 s2)) := by
  rw [correlateCircular_fft hn h1 h2]
  refine congrArg (fun c => Except.ok (_, c))
    (List.ext_getElem (by simp; omega) fun m hm _ => ?_)
  simp only [List.getElem_map, List.getElem_range, getElem_arange]
  exact circularSum_congr h1 h2 ⟨1, by push_cast; omega⟩

/-! ## The axis and the lags -/

/-- **The axis labels the lags**: both results have the length of the
signals, and every entry is the circular correlation at its label. -/
def LabelsLags (s1 s2 : List ℚ) : Prop :=
  ∃ axis corr, correlateCircular s1 s2 = .ok (axis, corr) ∧
    axis.length = s1.length ∧ corr.length = s1.length ∧
    ∀ m < s1.length, corr.getD m 0 = circularSum s1 s2 (axis.getD m 0)

/-- The first signal against the change of the second one from each
sample to the next, at lag `l`. -/
def circularDrop (s1 s2 : List ℚ) (l : ℤ) : ℚ :=
  ∑ i ∈ range s1.length, s1.getD i 0 * (cyc s2 (i - l) - cyc s2 (i - l - 1))

theorem circularDrop_eq (l : ℤ) :
    circularDrop s1 s2 l = circularSum s1 s2 l - circularSum s1 s2 (l + 1) := by
  rw [circularDrop, circularSum, circularSum, ← sum_sub_distrib]
  exact sum_congr rfl fun i _ => by rw [mul_sub, sub_sub]

/-- What the labels say, read at the returned arrays. -/
theorem labelsLags_iff (hn : 0 < n) (h1 : s1.length = n) (h2 : s2.length = n) :
    LabelsLags s1 s2 ↔ ∀ m < n, circularSum s1 s2 (m + (n + 1) / 2 : ℕ) =
      circularSum s1 s2 (m - (n + 1) / 2) := by
  have hrun := correlateCircular_fft hn h1 h2
  have hget : ∀ m < n, ((List.range n).map fun m => circularSum s1 s2 (m + (n + 1) / 2 : ℕ)).getD
      m 0 = circularSum s1 s2 (m + (n + 1) / 2 : ℕ) := by
    intro m hm
    rw [List.getD_eq_getElem _ _ (by simpa using hm), List.getElem_map, List.getElem_range]
  constructor
  · rintro ⟨axis, corr, hax, -, -, hval⟩ m hm
    rw [hrun] at hax
    obtain ⟨rfl, rfl⟩ := Prod.mk.inj (Except.ok.inj hax)
    have := hval m (by omega)
    rwa [hget m hm, getD_axis hm] at this
  · intro h
    refine ⟨_, _, hrun, by simp [h1]; omega, by simp [h1], fun m hm => ?_⟩
    rw [h1] at hm
    rw [hget m hm, getD_axis hm, h m hm]

/-- For an odd length every entry is the correlation one lag past its
label. -/
theorem labelsLags_odd_iff (hodd : n % 2 = 1) (h1 : s1.length = n) (h2 : s2.length = n) :
    LabelsLags s1 s2 ↔ ∀ l, circularDrop s1 s2 l = 0 := by
  have hn : (0 : ℤ) < n := by omega
  rw [labelsLags_iff (by omega) h1 h2]
  have hnext : ∀ m : ℕ, circularSum s1 s2 (m + (n + 1) / 2 : ℕ) =
      circularSum s1 s2 ((m : ℤ) - (n + 1) / 2 + 1) := fun m =>
    circularSum_congr h1 h2 ⟨1, by push_cast; omega⟩
  constructor
  · intro h l
    -- the label congruent to `l` has an index, and the entry there is the next lag
    set m := ((l + (n + 1) / 2) % n).toNat with hm
    have hlo := Int.emod_nonneg (l + (n + 1) / 2) hn.ne'
    have hhi := Int.emod_lt_of_pos (l + (n + 1) / 2) hn
    have hdvd : (n : ℤ) ∣ l - (m - (n + 1) / 2) := by
      refine ⟨(l + (n + 1) / 2) / n, ?_⟩
      have := Int.emod_add_mul_ediv (l + (n + 1) / 2) n
      omega
    have hent := h m (by omega)
    rw [hnext] at hent
    rw [circularDrop_eq, circularSum_congr h1 h2 hdvd, ← hent,
      circularSum_congr h1 h2 (show (n : ℤ) ∣ l + 1 - (m - (n + 1) / 2 + 1) by
        rwa [add_sub_add_right_eq_sub]), sub_self]
  · intro h m _
    have := h ((m : ℤ) - (n + 1) / 2)
    rw [circularDrop_eq, sub_eq_zero] at this
    rw [hnext, this]

/-- A pulse against itself correlates at lag zero only. -/
theorem circularDrop_pulse (hn : 2 ≤ n) :
    circularDrop (1 :: List.replicate (n - 1) 0) (1 :: List.replicate (n - 1) 0) 0 = 1 := by
  set s : List ℚ := 1 :: List.replicate (n - 1) 0 with hs
  have hlen : s.length = n := by simp [hs]; omega
  have hget : ∀ k, 0 < k → s.getD k 0 = 0 := by
    intro k hk
    obtain ⟨j, rfl⟩ : ∃ j, k = j + 1 := ⟨k - 1, by omega⟩
    rw [hs, List.getD_cons_succ]
    simp [List.getD_eq_getElem?_getD, List.getElem?_replicate]
    split <;> rfl
  rw [circularDrop, hlen, sum_eq_single_of_mem 0 (mem_range.2 (by omega)) fun i _ hi => by
    rw [hget i (by omega), zero_mul]]
  have h0 : cyc s ((0 : ℕ) - 0) = 1 := by simp [cyc, hs]
  have h1 : cyc s ((0 : ℕ) - 0 - 1) = 0 := by
    rw [← cyc_periodic s, hlen,
      show ((0 : ℕ) : ℤ) - 0 - 1 + n = ((n - 1 : ℕ) : ℤ) by omega, cyc_natCast (by omega),
      hget _ (by omega)]
  rw [h0, h1]
  simp [hs]

/-- **When the axis labels the lags.** For two signals of one length it
does exactly if the length is even or the correlation does not change
with the lag; for all signals of a length, exactly if that length is
even or one. -/
theorem correlateCircular_labelsLags_iff (n : ℕ) (hn : 1 ≤ n) :
    (∀ s1 s2 : List ℚ, s1.length = n → s2.length = n →
      (LabelsLags s1 s2 ↔ n % 2 = 0 ∨ ∀ l, circularDrop s1 s2 l = 0)) ∧
    ((∀ s1 s2 : List ℚ, s1.length = n → s2.length = n → LabelsLags s1 s2) ↔
      n % 2 = 0 ∨ n = 1) := by
  have heven : n % 2 = 0 → ∀ s1 s2 : List ℚ, s1.length = n → s2.length = n →
      LabelsLags s1 s2 := by
    intro he s1 s2 h1 h2
    exact (labelsLags_iff (by omega) h1 h2).2 fun m _ =>
      circularSum_congr h1 h2 ⟨1, by push_cast; omega⟩
  have hone : ∀ s1 s2 : List ℚ, s1.length = 1 → s2.length = 1 → LabelsLags s1 s2 :=
    fun s1 s2 h1 h2 => (labelsLags_odd_iff (n := 1) rfl h1 h2).2 fun l => by
      rw [circularDrop_eq, circularSum_congr h1 h2 (one_dvd _), sub_self]
  refine ⟨fun s1 s2 h1 h2 => ?_, fun h => ?_, ?_⟩
  · rcases Nat.mod_two_eq_zero_or_one n with he | ho
    · exact ⟨fun _ => Or.inl he, fun _ => heven he s1 s2 h1 h2⟩
    · rw [labelsLags_odd_iff ho h1 h2]
      exact ⟨Or.inr, fun h => h.resolve_left (by omega)⟩
  · by_contra hc
    have ho : n % 2 = 1 := by omega
    have hlen : (1 :: List.replicate (n - 1) (0 : ℚ)).length = n := by simp; omega
    have := (labelsLags_odd_iff ho hlen hlen).1 (h _ _ hlen hlen) 0
    rw [circularDrop_pulse (by omega)] at this
    exact one_ne_zero this
  · rintro (he | rfl)
    · exact heven he
    · exact hone

/-- Three samples against a pulse: the entry at label zero is the
correlation at lag one. -/
theorem not_labelsLags_three : ¬ LabelsLags [1, 2, 3] [1, 0, 0] := by
  intro h
  have := (labelsLags_iff (n := 3) (by decide) rfl rfl).1 h 2 (by decide)
  revert this
  decide +kernel

/-- The lags of two even-length signals and of two single samples. -/
theorem correlateCircular_labelsLags_iff_two :
    (LabelsLags [1, 2] [3, 4] ↔ 2 % 2 = 0 ∨ ∀ l, circularDrop [1, 2] [3, 4] l = 0) ∧
    ((∀ s1 s2 : List ℚ, s1.length = 2 → s2.length = 2 → LabelsLags s1 s2) ↔ 2 % 2 = 0 ∨ 2 = 1) :=
  ⟨(correlateCircular_labelsLags_iff 2 (by decide)).1 [1, 2] [3, 4] rfl rfl,
    (correlateCircular_labelsLags_iff 2 (by decide)).2⟩

/-! ## Swapping the signals -/

/-- The value of a correlation at a label of its axis. -/
def labelValue (axis : List ℤ) (corr : List ℚ) (l : ℤ) : ℚ := corr.getD (axis.idxOf l) 0

theorem labelValue_map {axis : List ℤ} {f : ℤ → ℚ} {l : ℤ} (h : l ∈ axis) :
    labelValue axis (axis.map f) l = f l := by
  have hlt := List.idxOf_lt_length_of_mem h
  rw [labelValue, List.getD_eq_getElem _ _ (by simpa using hlt), List.getElem_map,
    List.getElem_idxOf hlt]

/-- The label of an axis of even length `n` opposite to `l`. -/
def negLabel (n : ℕ) (l : ℤ) : ℤ := if 2 * l = -n then l else -l

/-- A label the correlation is largest at: a delay it can determine. -/
def IsPeakLabel (axis : List ℤ) (corr : List ℚ) (l : ℤ) : Prop :=
  l ∈ axis ∧ ∀ l' ∈ axis, labelValue axis corr l' ≤ labelValue axis corr l

/-- The axis of an even length is closed under taking the opposite label,
and holds one label of each residue. -/
theorem negLabel_spec (heven : n % 2 = 0) {l : ℤ} (h : l ∈ arange (-(n : ℤ) / 2) ((n : ℤ) / 2)) :
    negLabel n l ∈ arange (-(n : ℤ) / 2) ((n : ℤ) / 2) ∧ (n : ℤ) ∣ negLabel n l - -l ∧
      negLabel n (negLabel n l) = l := by
  rw [mem_arange] at h
  unfold negLabel
  split
  · rename_i hl
    exact ⟨mem_arange.2 h, ⟨-1, by omega⟩, rfl⟩
  · rename_i hl
    exact ⟨mem_arange.2 (by omega), ⟨0, by omega⟩, by rw [if_neg (by omega), neg_neg]⟩

/-- Two labels of one axis that agree modulo its length are equal. -/
theorem eq_of_mem_axis {l l' : ℤ} (h : l ∈ arange (-(n : ℤ) / 2) ((n : ℤ) / 2))
    (h' : l' ∈ arange (-(n : ℤ) / 2) ((n : ℤ) / 2)) (hdvd : (n : ℤ) ∣ l - l') : l = l' := by
  rw [mem_arange] at h h'
  obtain ⟨k, hk⟩ := hdvd
  have hlt : k < 1 := by
    by_contra hc
    have := mul_le_mul_of_nonneg_left (not_lt.1 hc) (Int.natCast_nonneg n)
    omega
  have hgt : -1 < k := by
    by_contra hc
    have := mul_le_mul_of_nonneg_left (not_lt.1 hc) (Int.natCast_nonneg n)
    omega
  have hk0 : k = 0 := by omega
  rw [hk0, mul_zero] at hk
  omega

/-- **Swapping the signals negates the lag of every value.** The value of
the swapped correlation at a label is the original one at the label
opposite to it, the only one congruent to its negative; so the labels
the two are largest at are opposite, and the delays read off them
negate. -/
theorem correlateCircular_swap (n : ℕ) (heven : n % 2 = 0) (s1 s2 : List ℚ)
    (h1 : s1.length = n) (h2 : s2.length = n) :
    ∃ axis c12 c21, correlateCircular s1 s2 = .ok (axis, c12) ∧
      correlateCircular s2 s1 = .ok (axis, c21) ∧
      (∀ l ∈ axis, negLabel n l ∈ axis ∧
        (∀ l' ∈ axis, (n : ℤ) ∣ l' - -l ↔ l' = negLabel n l) ∧
        labelValue axis c21 l = labelValue axis c12 (negLabel n l)) ∧
      ∀ l ∈ axis, IsPeakLabel axis c21 l ↔ IsPeakLabel axis c12 (negLabel n l) := by
  -- two empty signals have an empty axis
  rcases Nat.eq_zero_or_pos n with rfl | hn
  · obtain rfl := List.length_eq_zero_iff.1 h1
    obtain rfl := List.length_eq_zero_iff.1 h2
    exact ⟨[], [], [], rfl, rfl, by simp, by simp⟩
  set axis := arange (-(n : ℤ) / 2) ((n : ℤ) / 2) with haxis
  have hval : ∀ l ∈ axis, labelValue axis (axis.map (circularSum s2 s1)) l =
      labelValue axis (axis.map (circularSum s1 s2)) (negLabel n l) := by
    intro l hl
    obtain ⟨hmem, hdvd, -⟩ := negLabel_spec heven hl
    have hp1 := cyc_periodic s1
    have hp2 := cyc_periodic s2
    rw [h1] at hp1
    rw [h2] at hp2
    rw [labelValue_map hl, labelValue_map hmem, circularSum_congr h1 h2 hdvd,
      circularSum_eq_circCorr h1, circularSum_eq_circCorr h2, circCorr_swap hp1 hp2]
  refine ⟨axis, _, _, correlateCircular_even hn heven h1 h2, correlateCircular_even hn heven h2 h1,
    fun l hl => ?_, fun l hl => ?_⟩
  · obtain ⟨hmem, hdvd, -⟩ := negLabel_spec heven hl
    refine ⟨hmem, fun l' hl' => ⟨fun h => ?_, fun h => h ▸ hdvd⟩, hval l hl⟩
    refine eq_of_mem_axis hl' hmem ?_
    have := dvd_sub h hdvd
    rwa [sub_sub_sub_cancel_right] at this
  · obtain ⟨hmem, -, -⟩ := negLabel_spec heven hl
    refine ⟨fun h => ⟨hmem, fun m hm => ?_⟩, fun h => ⟨hl, fun m hm => ?_⟩⟩
    · obtain ⟨hmm, -, hinv⟩ := negLabel_spec heven hm
      have := h.2 _ hmm
      rwa [hval l hl, hval _ hmm, hinv] at this
    · rw [hval l hl, hval m hm]
      exact h.2 _ (negLabel_spec heven hm).1

theorem correlateCircular_swap_four :
    ∃ axis c12 c21, correlateCircular [1, 2, 3, 4] [0, 1, 0, 0] = .ok (axis, c12) ∧
      correlateCircular [0, 1, 0, 0] [1, 2, 3, 4] = .ok (axis, c21) ∧
      (∀ l ∈ axis, negLabel 4 l ∈ axis ∧
        (∀ l' ∈ axis, ((4 : ℕ) : ℤ) ∣ l' - -l ↔ l' = negLabel 4 l) ∧
        labelValue axis c21 l = labelValue axis c12 (negLabel 4 l)) ∧
      ∀ l ∈ axis, IsPeakLabel axis c21 l ↔ IsPeakLabel axis c12 (negLabel 4 l) :=
  correlateCircular_swap 4 rfl [1, 2, 3, 4] [0, 1, 0, 0] rfl rfl

/-! ## The two paths -/

/-- The time domain path returns every linear lag. -/
theorem correlateCircular_timeDomain (hn : 0 < n) (h1 : s1.length = n) (h2 : s2.length = n) :
    ∃ axis corr, correlateCircular s1 s2 true = .ok (axis, corr) ∧ corr.length = 2 * n - 1 := by
  refine ⟨_, _, rfl, ?_⟩
  have hne1 : s1 ≠ [] := List.ne_nil_of_length_pos (by omega)
  have hne2 : s2 ≠ [] := List.ne_nil_of_length_pos (by omega)
  simp [correlate, hne1, hne2, h1, h2]
  omega

/-- **When the two paths agree**: the time domain path never folds its
linear correlation into one period, so they do for single samples
only. -/
theorem correlateCircular_timeDomain_eq_iff (n : ℕ) (hn : 1 ≤ n) (s1 s2 : List ℚ)
    (h1 : s1.length = n) (h2 : s2.length = n) :
    correlateCircular s1 s2 true = correlateCircular s1 s2 false ↔ n = 1 := by
  constructor
  · intro h
    obtain ⟨axis, corr, hrun, hlen⟩ := correlateCircular_timeDomain hn h1 h2
    rw [hrun, correlateCircular_fft hn h1 h2] at h
    obtain ⟨-, rfl⟩ := Prod.mk.inj (Except.ok.inj h)
    simp at hlen
    omega
  · rintro rfl
    obtain ⟨x, rfl⟩ := List.length_eq_one_iff.1 h1
    obtain ⟨y, rfl⟩ := List.length_eq_one_iff.1 h2
    rw [correlateCircular_fft (n := 1) one_pos rfl rfl]
    simp [correlateCircular, correlate, circularSum, cyc, zeroExt, fftshift, bind, Except.bind,
      pure, Except.pure]

/-- Two samples: three linear lags against two circular ones. -/
theorem correlateCircular_timeDomain_ne :
    correlateCircular [1, 2] [3, 4] true ≠ correlateCircular [1, 2] [3, 4] false := by
  decide +kernel

theorem correlateCircular_timeDomain_eq_iff_one :
    correlateCircular [5] [7] true = correlateCircular [5] [7] false ↔ 1 = 1 :=
  correlateCircular_timeDomain_eq_iff 1 le_rfl [5] [7] rfl rfl

end Delay

end WrCalibration
