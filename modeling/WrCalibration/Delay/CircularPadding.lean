import WrCalibration.Delay.Circular
import Mathlib.Order.Interval.Finset.Nat

/-!
# Signals of different lengths

Two signals of different lengths correlate as if the shorter one went on
with zeros, if the slices of the linear correlation are padded at the right
end. The slice of the non-negative lags is padded in front: for a first
signal that is the shorter one, its lags come out too late by the
difference of the lengths, and only where it is zero altogether
(`linearSum_eq_zero_iff`) this does not show.
-/

namespace WrCalibration

namespace Delay

open Python Finset

variable {s1 s2 : List ℚ}

/-! ## Zeros at the end -/

/-- A signal with zeros at its end, of length `n`. -/
def zeroPadded (n : ℕ) (s : List ℚ) : List ℚ := s ++ List.replicate (n - s.length) 0

theorem length_zeroPadded {n : ℕ} {s : List ℚ} (h : s.length ≤ n) :
    (zeroPadded n s).length = n := by
  rw [zeroPadded, List.length_append, List.length_replicate, Nat.add_sub_cancel' h]

theorem getD_zeroPadded (n : ℕ) (s : List ℚ) (i : ℕ) : (zeroPadded n s).getD i 0 = s.getD i 0 := by
  rcases Nat.lt_or_ge i s.length with hi | hi
  · rw [zeroPadded, List.getD_append _ _ _ _ hi]
  · rw [zeroPadded, List.getD_append_right _ _ _ _ hi, List.getD_eq_default s _ hi]
    rcases Nat.lt_or_ge (i - s.length) (n - s.length) with hlt | hge
    · rw [List.getD_replicate _ hlt]
    · rw [List.getD_eq_default _ _ (by rwa [List.length_replicate])]

/-- The linear correlation does not see the zeros. -/
theorem linearSum_zeroPadded {n : ℕ} (h1 : s1.length ≤ n) (l : ℤ) :
    linearSum (zeroPadded n s1) (zeroPadded n s2) l = linearSum s1 s2 l := by
  have hext : ∀ i, zeroExt (zeroPadded n s2) i = zeroExt s2 i := fun i => by
    rw [zeroExt, zeroExt, getD_zeroPadded]
  simp only [linearSum, hext, getD_zeroPadded, length_zeroPadded h1]
  refine (sum_subset (range_mono h1) fun i _ hi => ?_).symm
  rw [mem_range, not_lt] at hi
  rw [List.getD_eq_default _ _ hi, zero_mul]

/-- **The circular correlation of the padded signals** is made up of two
linear lags of the signals themselves. -/
theorem circularSum_zeroPadded {n j : ℕ} (h1 : s1.length ≤ n) (h2 : s2.length ≤ n) (hj : j < n) :
    circularSum (zeroPadded n s1) (zeroPadded n s2) j =
      linearSum s1 s2 j + linearSum s1 s2 (j - n) := by
  have hlen1 := length_zeroPadded h1
  have hlen2 := length_zeroPadded h2
  rw [← foldedSum_eq_circularSum hlen1 hlen2 hj, foldedSum, hlen1, hlen2, max_self, Nat.sub_self,
    if_neg (Nat.not_lt_zero j), linearSum_zeroPadded h1, linearSum_zeroPadded h1, Nat.cast_zero,
    sub_zero]

/-! ## The lags that are moved -/

theorem lt_length_of_getD_ne_zero {s : List ℚ} {i : ℕ} (h : s.getD i 0 ≠ 0) : i < s.length := by
  by_contra hge
  exact h (List.getD_eq_default _ _ (not_lt.1 hge))

/-- The last sample that is not zero. -/
theorem exists_last_ne_zero {s : List ℚ} {i : ℕ} (hi : s.getD i 0 ≠ 0) :
    ∃ i₁, s.getD i₁ 0 ≠ 0 ∧ ∀ i, s.getD i 0 ≠ 0 → i ≤ i₁ := by
  have hmem : ∀ i, s.getD i 0 ≠ 0 → i ∈ (range s.length).filter fun i => s.getD i 0 ≠ 0 :=
    fun i hi => mem_filter.2 ⟨mem_range.2 (lt_length_of_getD_ne_zero hi), hi⟩
  exact ⟨_, (mem_filter.1 (max'_mem _ ⟨i, hmem i hi⟩)).2, fun i hi => le_max' _ i (hmem i hi)⟩

/-- The first sample that is not zero. -/
theorem exists_first_ne_zero {s : List ℚ} {j : ℕ} (hj : s.getD j 0 ≠ 0) :
    ∃ j₁, s.getD j₁ 0 ≠ 0 ∧ ∀ j, s.getD j 0 ≠ 0 → j₁ ≤ j := by
  have hex : ∃ j, s.getD j 0 ≠ 0 := ⟨j, hj⟩
  exact ⟨Nat.find hex, Nat.find_spec hex, fun _ hj => Nat.find_min' hex hj⟩

/-- At the distance of the last sample of the first signal from the first
one of the second these two are the only samples that meet. -/
theorem linearSum_ends {i₁ j₁ : ℕ} (hi₁ : s1.getD i₁ 0 ≠ 0)
    (hlast : ∀ i, s1.getD i 0 ≠ 0 → i ≤ i₁) (hfirst : ∀ j, s2.getD j 0 ≠ 0 → j₁ ≤ j)
    (hle : j₁ ≤ i₁) : linearSum s1 s2 (i₁ - j₁ : ℕ) = s1.getD i₁ 0 * s2.getD j₁ 0 := by
  rw [linearSum, sum_eq_single i₁]
  · rw [show (i₁ : ℤ) - ((i₁ - j₁ : ℕ) : ℤ) = (j₁ : ℤ) by omega, zeroExt_natCast]
  · intro k _ hk
    by_cases hk0 : s1.getD k 0 = 0
    · rw [hk0, zero_mul]
    · have hbefore := hlast k hk0
      have hzero : zeroExt s2 (k - (i₁ - j₁ : ℕ)) = 0 := by
        by_contra hne
        rw [zeroExt] at hne
        split at hne
        · have hfar := hfirst _ hne
          omega
        · exact hne rfl
      rw [hzero, mul_zero]
  · intro hout
    exact absurd (mem_range.2 (lt_length_of_getD_ne_zero hi₁)) hout

/-- The non-negative lags vanish together if and only if no sample of the
first signal stands behind one of the second, zeros left aside. -/
theorem linearSum_eq_zero_iff {n : ℕ} (h1 : s1.length ≤ n) :
    (∀ l < n, linearSum s1 s2 (l : ℕ) = 0) ↔
      ∀ i j, s1.getD i 0 ≠ 0 → s2.getD j 0 ≠ 0 → i < j := by
  constructor
  · intro hzero i j hi hj
    by_contra hle
    obtain ⟨i₁, hi₁, hlast⟩ := exists_last_ne_zero hi
    obtain ⟨j₁, hj₁, hfirst⟩ := exists_first_ne_zero hj
    have hle₁ := hlast i hi
    have hle₂ := hfirst j hj
    have hlen := lt_length_of_getD_ne_zero hi₁
    have hsum := linearSum_ends hi₁ hlast hfirst (by omega)
    rw [hzero _ (by omega)] at hsum
    exact mul_ne_zero hi₁ hj₁ hsum.symm
  · intro hbefore l _
    refine sum_eq_zero fun i _ => ?_
    by_contra hne
    obtain ⟨hi, hext⟩ := mul_ne_zero_iff.1 hne
    rw [zeroExt] at hext
    split at hext
    · have hlt' := hbefore i _ hi hext
      omega
    · exact hext rfl

/-- A sequence that is the same moved by some places, with zeros in front,
is zero. -/
theorem eq_zero_of_moved {f : ℕ → ℚ} {n k : ℕ} (hk : 0 < k)
    (h : ∀ j < n, (if j < k then 0 else f (j - k)) = f j) : ∀ j < n, f j = 0 := by
  intro j
  induction j using Nat.strong_induction_on with
  | _ j ih =>
    intro hj
    rw [← h j hj]
    split
    · rfl
    · exact ih (j - k) (by omega) (by omega)

/-! ## The circular correlation -/

/-- **The correlation of the padded signals**: as many values as the longer
signal has samples, and at each label the circular correlation of the two
signals with zeros at their ends. -/
def CorrelatesPadded (s1 s2 : List ℚ) : Prop :=
  ∃ axis corr, correlateCircular s1 s2 = .ok (axis, corr) ∧
    corr.length = max s1.length s2.length ∧
    ∀ l : ℤ, -(max s1.length s2.length : ℕ) / 2 ≤ l → l < (max s1.length s2.length : ℕ) / 2 →
      l ∈ axis ∧ labelValue axis corr l =
        circularSum (zeroPadded (max s1.length s2.length) s1)
          (zeroPadded (max s1.length s2.length) s2) l

/-- What the FFT branch returns for an even length of the longer signal. -/
theorem correlateCircular_folded (h1 : s1 ≠ []) (h2 : s2 ≠ []) {n : ℕ}
    (hn : max s1.length s2.length = n) (heven : n % 2 = 0) :
    correlateCircular s1 s2 = .ok (arange (-(n : ℤ) / 2) ((n : ℤ) / 2),
      (arange (-(n : ℤ) / 2) ((n : ℤ) / 2)).map fun l : ℤ => foldedSum s1 s2 (l % n).toNat) := by
  obtain ⟨corr, hlen, hrun, hval⟩ := correlateCircular_eq h1 h2
  rw [hn] at hlen
  rw [hlen] at hrun hval
  rw [hrun]
  refine congrArg (fun c => Except.ok (_, c)) (List.ext_getElem (by simp; omega) fun m hm _ => ?_)
  have hv := hval m (by omega)
  rw [List.getD_eq_getElem _ _ hm] at hv
  rw [hv, List.getElem_map, getElem_arange]
  -- the label at an index is the index less half the length
  have hlabel : -(n : ℤ) / 2 + m = (m + (n + 1) / 2 : ℕ) - n := by omega
  rw [hlabel, Int.sub_emod_right]
  rfl

/-- What the labels ask of the folded sums. -/
theorem correlatesPadded_iff_foldedSum (h1 : s1 ≠ []) (h2 : s2 ≠ []) {n : ℕ}
    (hn : max s1.length s2.length = n) (heven : n % 2 = 0) :
    CorrelatesPadded s1 s2 ↔
      ∀ j < n, foldedSum s1 s2 j = linearSum s1 s2 j + linearSum s1 s2 (j - n) := by
  have hle1 : s1.length ≤ n := hn ▸ le_max_left _ _
  have hle2 : s2.length ≤ n := hn ▸ le_max_right _ _
  have hpos : 0 < n := (List.length_pos_of_ne_nil h1).trans_le hle1
  have hrun := correlateCircular_folded h1 h2 hn heven
  have hmod : ∀ l : ℤ, ∃ j < n, (l % n).toNat = j ∧ circularSum (zeroPadded n s1)
      (zeroPadded n s2) l = linearSum s1 s2 j + linearSum s1 s2 (j - n) := by
    intro l
    have hlo := Int.emod_nonneg l (show (n : ℤ) ≠ 0 by omega)
    have hhi := Int.emod_lt_of_pos l (show (0 : ℤ) < n by omega)
    refine ⟨(l % n).toNat, by omega, rfl, ?_⟩
    rw [← circularSum_zeroPadded hle1 hle2 (by omega), Int.toNat_of_nonneg hlo]
    refine circularSum_congr (length_zeroPadded hle1) (length_zeroPadded hle2) ?_
    exact Int.dvd_self_sub_emod
  constructor
  · rintro ⟨axis, corr, hok, -, hvalue⟩ j hj
    obtain ⟨rfl, rfl⟩ := ok_pair_inj hrun hok
    rw [hn] at hvalue
    obtain ⟨l, hlo, hhi, hl⟩ : ∃ l : ℤ, -(n : ℤ) / 2 ≤ l ∧ l < (n : ℤ) / 2 ∧ (l % n).toNat = j := by
      rcases Nat.lt_or_ge j (n / 2) with hlt | hge
      · refine ⟨j, by omega, by omega, ?_⟩
        rw [Int.emod_eq_of_lt (by omega) (by omega), Int.toNat_natCast]
      · refine ⟨j - n, by omega, by omega, ?_⟩
        rw [Int.sub_emod_right, Int.emod_eq_of_lt (by omega) (by omega), Int.toNat_natCast]
    obtain ⟨hmem, heq⟩ := hvalue l hlo hhi
    obtain ⟨j', -, hj', hsum⟩ := hmod l
    obtain rfl : j' = j := hj'.symm.trans hl
    rwa [labelValue_map hmem, hl, hsum] at heq
  · intro hfold
    refine ⟨_, _, hrun, by simp [hn]; omega, fun l hlo hhi => ?_⟩
    rw [hn] at hlo hhi ⊢
    have hmem : l ∈ arange (-(n : ℤ) / 2) ((n : ℤ) / 2) := mem_arange.2 ⟨hlo, hhi⟩
    obtain ⟨j, hj, hl, hsum⟩ := hmod l
    refine ⟨hmem, ?_⟩
    rw [labelValue_map hmem, hl, hsum, hfold j hj]

/-- **When signals of different lengths correlate as padded ones**: if the
first one is not the shorter one, or none of its samples stands behind a
sample of the second, zeros left aside. -/
theorem correlatesPadded_iff (s1 s2 : List ℚ) (h1 : s1 ≠ []) (h2 : s2 ≠ [])
    (heven : max s1.length s2.length % 2 = 0) :
    CorrelatesPadded s1 s2 ↔ s2.length ≤ s1.length ∨
      ∀ i j, s1.getD i 0 ≠ 0 → s2.getD j 0 ≠ 0 → i < j := by
  obtain ⟨n, hn⟩ : ∃ n, max s1.length s2.length = n := ⟨_, rfl⟩
  rw [correlatesPadded_iff_foldedSum h1 h2 hn (hn ▸ heven),
    ← linearSum_eq_zero_iff (hn ▸ le_max_left _ _ : s1.length ≤ n)]
  simp only [foldedSum, hn, add_left_inj]
  rcases Nat.lt_or_ge s1.length s2.length with hlt | hge
  · rw [or_iff_right (by omega)]
    constructor
    · intro hmoved
      -- the lags are the same at their own place and moved by the difference
      refine eq_zero_of_moved (f := fun l => linearSum s1 s2 (l : ℕ)) (k := n - s1.length)
        (by omega) fun j hj => ?_
      rw [← hmoved j hj]
      split
      · rfl
      · rw [Int.natCast_sub (by omega)]
    · intro hzero j hj
      rw [hzero j hj]
      split
      · rfl
      · rw [← Int.natCast_sub (by omega)]
        exact hzero _ (by omega)
  · have hlen : n - s1.length = 0 := by omega
    refine iff_of_true (fun j _ => ?_) (.inl hge)
    rw [hlen, if_neg (Nat.not_lt_zero j), Nat.cast_zero, sub_zero]

/-- One sample against two. -/
theorem correlatesPadded_iff_two :
    CorrelatesPadded [1, 2] [3] ↔ [3].length ≤ ([1, 2] : List ℚ).length ∨
      ∀ i j, ([1, 2] : List ℚ).getD i 0 ≠ 0 → ([3] : List ℚ).getD j 0 ≠ 0 → i < j :=
  correlatesPadded_iff [1, 2] [3] (List.cons_ne_nil _ _) (List.cons_ne_nil _ _) rfl

/-- A first signal of one sample comes out one label too late. -/
theorem not_correlatesPadded_one : ¬ CorrelatesPadded [1] [1, 0] := by
  rintro ⟨axis, corr, hrun, -, hvalue⟩
  have hok : correlateCircular [1] [1, 0] = .ok ([-1, 0], [1, 0]) := by decide +kernel
  obtain ⟨rfl, rfl⟩ := ok_pair_inj hok hrun
  have hzero := (hvalue 0 (by decide) (by decide)).2
  revert hzero
  decide +kernel

end Delay

end WrCalibration
