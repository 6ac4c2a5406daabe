import WrCalibration.Delay.LinearWindow

/-!
# The delay by the measures of difference

Where the second signal is the first one moved by the delay, the windows at
the delay hold the same samples. The sum of their squared differences is
then zero, and nowhere less. The sum that the magnitude measure takes is of
the differences themselves, and can be less than zero: it compares the sums
of the windows and not their samples.
-/

namespace WrCalibration

namespace Delay

open Python Finset

variable {s1 s2 : List ℚ} {center shift d : ℤ} {len : ℕ}

/-- The first signal is the second one `d` samples later, where both have
samples. -/
def IsDelayedBy (s1 s2 : List ℚ) (d : ℤ) : Prop :=
  ∀ i : ℕ, i < s1.length → 0 ≤ i - d → i - d < s2.length →
    s1.getD i 0 = s2.getD (i - d).toNat 0

/-- A label the correlation is smallest at. -/
def IsMinLabel (axis : List ℤ) (corr : List ℚ) (l : ℤ) : Prop :=
  l ∈ axis ∧ ∀ l' ∈ axis, labelValue axis corr l ≤ labelValue axis corr l'

/-- The sum over the window of the second signal at lag `l`. -/
def laggedSum (s2 : List ℚ) (a : ℤ) (len : ℕ) (l : ℤ) : ℚ :=
  ∑ j ∈ range len, s2.getD (a + j - l).toNat 0

/-- A measure is smallest at a label if no lag of the axis has less. -/
theorem isMinLabel_map {f : ℤ → ℚ} {l : ℤ} (hl : l ∈ linearAxis center shift) :
    IsMinLabel (linearAxis center shift) ((linearAxis center shift).map f) l ↔
      ∀ l', center - shift ≤ l' → l' ≤ center + shift → f l ≤ f l' := by
  constructor
  · rintro ⟨-, hmin⟩ l' hlo hhi
    have hl' : l' ∈ linearAxis center shift := mem_linearAxis.2 ⟨hlo, hhi⟩
    have hle := hmin l' hl'
    rwa [labelValue_map hl, labelValue_map hl'] at hle
  · intro hmin
    refine ⟨hl, fun l' hl' => ?_⟩
    rw [labelValue_map hl, labelValue_map hl']
    obtain ⟨hlo, hhi⟩ := mem_linearAxis.1 hl'
    exact hmin l' hlo hhi

/-! ## The windows at the delay -/

/-- **At the delay the windows hold the same samples.** -/
theorem getD_window_delay (hd : IsDelayedBy s1 s2 d) (hs : 0 ≤ shift)
    (hlen : (len : ℤ) ≤ windowLength s1 s2 center shift) (hlo : center - shift ≤ d)
    (hhi : d ≤ center + shift) {j : ℕ} (hj : j < len) :
    s1.getD (windowStart center shift + j).toNat 0 =
      s2.getD (windowStart center shift + j - d).toNat 0 := by
  obtain ⟨h0, h1, h2, h3⟩ := window_bounds hs hlen hj hlo hhi
  obtain ⟨i, hi⟩ := Int.eq_ofNat_of_zero_le h0
  rw [hi] at h1 h2 h3 ⊢
  exact hd i (by omega) h2 h3

/-- The squared differences sum to zero there, -/
theorem windowSum_square_delay (hd : IsDelayedBy s1 s2 d) (hs : 0 ≤ shift)
    (hlen : (len : ℤ) ≤ windowLength s1 s2 center shift) (hlo : center - shift ≤ d)
    (hhi : d ≤ center + shift) :
    windowSum .ASDF s1 s2 (windowStart center shift) len d = 0 := by
  refine sum_eq_zero fun j hj => ?_
  rw [CorrelationType.kernel, getD_window_delay hd hs hlen hlo hhi (mem_range.1 hj), sub_self]
  exact zero_pow two_ne_zero

/-- and to no less anywhere. -/
theorem windowSum_square_nonneg (s1 s2 : List ℚ) (a : ℤ) (len : ℕ) (l : ℤ) :
    0 ≤ windowSum .ASDF s1 s2 a len l :=
  sum_nonneg fun _ _ => sq_nonneg _

/-- The differences sum to the difference of the sums. -/
theorem windowSum_magnitude (hd : IsDelayedBy s1 s2 d) (hs : 0 ≤ shift)
    (hlen : (len : ℤ) ≤ windowLength s1 s2 center shift) (hlo : center - shift ≤ d)
    (hhi : d ≤ center + shift) (l : ℤ) :
    windowSum .AMDF s1 s2 (windowStart center shift) len l =
      laggedSum s2 (windowStart center shift) len d -
        laggedSum s2 (windowStart center shift) len l := by
  rw [windowSum, laggedSum, laggedSum, ← sum_sub_distrib]
  refine sum_congr rfl fun j hj => ?_
  rw [CorrelationType.kernel, getD_window_delay hd hs hlen hlo hhi (mem_range.1 hj)]

/-! ## The delay -/

/-- **The measures of difference locate the delay**: both are smallest at
its label. -/
def LocateDelay (s1 s2 : List ℚ) (center shift : ℤ) (length : Option ℤ) (d : ℤ) : Prop :=
  ∃ axis square magnitude,
    correlateLinear s1 s2 center shift length "ASDF" = .ok (axis, square) ∧
    correlateLinear s1 s2 center shift length "AMDF" = .ok (axis, magnitude) ∧
    IsMinLabel axis square d ∧ IsMinLabel axis magnitude d

/-- **When the measures of difference locate the delay**: if the window of
the second signal at the delay has the greatest sum of all the lags. -/
theorem locateDelay_iff (s1 s2 : List ℚ) (d : ℤ) (hd : IsDelayedBy s1 s2 d) (center shift : ℤ)
    (hs : 0 ≤ shift) (hlo : center - shift ≤ d) (hhi : d ≤ center + shift) (len : ℕ)
    (hlen : (len : ℤ) ≤ windowLength s1 s2 center shift) (length : Option ℤ)
    (hlength : length.getD (windowLength s1 s2 center shift) = len) :
    LocateDelay s1 s2 center shift length d ↔
      ∀ l, center - shift ≤ l → l ≤ center + shift →
        laggedSum s2 (windowStart center shift) len l ≤
          laggedSum s2 (windowStart center shift) len d := by
  have hsquare := correlateLinear_eq
    (show CorrelationType.ofName "ASDF" = .ok .ASDF from rfl) hs hlength hlen
  have hmagnitude := correlateLinear_eq
    (show CorrelationType.ofName "AMDF" = .ok .AMDF from rfl) hs hlength hlen
  have hmem : d ∈ linearAxis center shift := mem_linearAxis.2 ⟨hlo, hhi⟩
  have hsum : ∀ l, windowSum .AMDF s1 s2 (windowStart center shift) len d ≤
      windowSum .AMDF s1 s2 (windowStart center shift) len l ↔
        laggedSum s2 (windowStart center shift) len l ≤
          laggedSum s2 (windowStart center shift) len d := by
    intro l
    rw [windowSum_magnitude hd hs hlen hlo hhi, windowSum_magnitude hd hs hlen hlo hhi, sub_self,
      sub_nonneg]
  constructor
  · rintro ⟨axis, square, magnitude, -, hrun, -, hmin⟩ l hllo hlhi
    obtain ⟨rfl, rfl⟩ := ok_pair_inj hmagnitude hrun
    exact (hsum l).1 ((isMinLabel_map hmem).1 hmin l hllo hlhi)
  · intro hgreatest
    refine ⟨_, _, _, hsquare, hmagnitude, (isMinLabel_map hmem).2 fun l _ _ => ?_,
      (isMinLabel_map hmem).2 fun l hllo hlhi => (hsum l).2 (hgreatest l hllo hlhi)⟩
    rw [windowSum_square_delay hd hs hlen hlo hhi]
    exact windowSum_square_nonneg s1 s2 _ len l

/-- A signal and itself, around its greatest sample. -/
theorem locateDelay_iff_three :
    LocateDelay [0, 1, 0] [0, 1, 0] 0 1 none 0 ↔
      ∀ l, (0 : ℤ) - 1 ≤ l → l ≤ 0 + 1 →
        laggedSum [0, 1, 0] (windowStart 0 1) 1 l ≤ laggedSum [0, 1, 0] (windowStart 0 1) 1 0 :=
  locateDelay_iff [0, 1, 0] [0, 1, 0] 0 (fun i _ _ _ => by rw [sub_zero, Int.toNat_natCast]) 0 1
    (by decide) (by decide) (by decide) 1 (by decide) none rfl

/-- A signal that rises behind the window has a smaller sum of differences
at a lag that is not its delay. -/
theorem not_locateDelay_three :
    IsDelayedBy [0, 0, 1] [0, 0, 1] 0 ∧ ¬ LocateDelay [0, 0, 1] [0, 0, 1] 0 1 none 0 := by
  refine ⟨fun i _ _ _ => by rw [sub_zero, Int.toNat_natCast], ?_⟩
  rintro ⟨axis, square, magnitude, -, hrun, -, -, hmin⟩
  have hok : correlateLinear [0, 0, 1] [0, 0, 1] 0 1 none "AMDF" =
      .ok ([-1, 0, 1], [-1, 0, 0]) := by
    decide +kernel
  obtain ⟨rfl, rfl⟩ := ok_pair_inj hok hrun
  have hle := hmin (-1) (by decide)
  revert hle
  decide +kernel

end Delay

end WrCalibration
