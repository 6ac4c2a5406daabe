import WrCalibration.Delay.LinearMeasures

/-!
# The padded linear correlation

The padding makes the result as long as the window and leaves the values at
their labels, with zeros on both sides. One zero fewer stands in front than
behind: the axis runs from `-n / 2 + 1` to `n / 2`, and that of the circular
correlation from `-n / 2` to `n / 2 - 1`.
-/

namespace WrCalibration

namespace Delay

open Python Finset

variable {s1 s2 : List ℚ} {shift : ℤ} {n : ℕ}

/-- The axis of a correlation around zero. -/
theorem linearAxis_zero (shift : ℤ) : linearAxis 0 shift = arange (-shift) (shift + 1) := by
  rw [linearAxis]
  simp only [add_zero, List.map_id']

/-- The ends of that axis. -/
theorem ends_arange (hs : 0 ≤ shift) :
    (arange (-shift) (shift + 1)).headD 0 = -shift ∧
      (arange (-shift) (shift + 1)).getLastD 0 = shift := by
  constructor
  · rw [List.headD_eq_head?_getD, List.head?_eq_getElem?, ← List.getD_eq_getElem?_getD,
      getD_arange (by omega), Nat.cast_zero, add_zero]
  · rw [List.getLastD_eq_getLast?, List.getLast?_eq_getElem?, ← List.getD_eq_getElem?_getD,
      length_arange, getD_arange (by omega)]
    omega

/-- Zeros are the values of a function that vanishes on a range. -/
theorem replicate_zero_eq_map {f : ℤ → ℚ} {lo hi : ℤ} {k : ℕ} (hk : (hi - lo).toNat = k)
    (hf : ∀ l, lo ≤ l → l < hi → f l = 0) : List.replicate k 0 = (arange lo hi).map f := by
  symm
  rw [List.map_eq_replicate_iff.2 fun l hl => hf l (mem_arange.1 hl).1 (mem_arange.1 hl).2,
    length_arange, hk]

/-- The padded axis: one label fewer in front than behind. -/
def paddedAxis (n : ℕ) : List ℤ := arange (-(n : ℤ) / 2 + 1) (n / 2 + 1)

/-- **What the padding returns**: the values at their labels, and zeros at
all others. -/
theorem zeroPadding_eq (heven : n % 2 = 0) (hs : 0 ≤ shift) (hlt : 2 * shift < n) (f : ℤ → ℚ) :
    zeroPadding n (arange (-shift) (shift + 1)) ((arange (-shift) (shift + 1)).map f) =
      .ok (paddedAxis n,
        (paddedAxis n).map fun l => if -shift ≤ l ∧ l ≤ shift then f l else 0) := by
  obtain ⟨z, hz⟩ : ∃ z : ℕ, (n : ℤ) / 2 - shift = (z : ℤ) + 1 :=
    ⟨((n : ℤ) / 2 - shift - 1).toNat, by omega⟩
  have hlen : ((((arange (-shift) (shift + 1)).map f).length : ℤ)) / 2 = shift := by
    rw [List.length_map, length_arange]
    omega
  obtain ⟨hfirst, hlast⟩ := ends_arange hs
  have hbefore : (zeros ((z : ℤ) + 1 - 1) : Py (List ℚ)) = .ok (List.replicate z 0) := by
    rw [add_sub_cancel_right, zeros_natCast]
  have hafter : (zeros ((z : ℤ) + 1) : Py (List ℚ)) = .ok (List.replicate (z + 1) 0) := by
    rw [← Nat.cast_succ, zeros_natCast]
  have hlo : -shift - ((z : ℤ) + 1) + 1 = -(n : ℤ) / 2 + 1 := by omega
  have hhi : shift + ((z : ℤ) + 1) + 1 = n / 2 + 1 := by omega
  have haxis : arange (-(n : ℤ) / 2 + 1) (-shift) ++ arange (-shift) (shift + 1) ++
      arange (shift + 1) (n / 2 + 1) = paddedAxis n := by
    rw [arange_append (by omega) (by omega), arange_append (by omega) (by omega), paddedAxis]
  have hvalues : List.replicate z 0 ++ (arange (-shift) (shift + 1)).map f ++
      List.replicate (z + 1) 0 =
        (paddedAxis n).map fun l => if -shift ≤ l ∧ l ≤ shift then f l else 0 := by
    rw [← haxis, List.map_append, List.map_append]
    refine congrArg₂ _ (congrArg₂ _ ?_ ?_) ?_
    · exact replicate_zero_eq_map (by omega) fun l _ hl => if_neg (by omega)
    · refine List.map_congr_left fun l hl => ?_
      rw [mem_arange] at hl
      rw [if_pos (by omega)]
    · exact replicate_zero_eq_map (by omega) fun l hl _ => if_neg (by omega)
  unfold zeroPadding
  simp only [hlen, hz, hfirst, hlast, hbefore, hafter, hlo, hhi, bind, Except.bind, pure,
    Except.pure, if_pos (show (z : ℤ) + 1 > 0 by omega)]
  split
  · rw [haxis, hvalues]
  · -- with one label behind there is none in front
    have hz0 : z = 0 := by omega
    have hempty : arange (-(n : ℤ) / 2 + 1) (-shift) = [] :=
      List.eq_nil_of_length_eq_zero (by rw [length_arange]; omega)
    rw [hempty] at haxis
    rw [hz0, List.replicate_zero] at hvalues
    rw [hz0, haxis, hvalues]

/-- **What the padded correlation returns.** -/
theorem correlateLinear_padded {name : String} {kind : CorrelationType}
    (hname : CorrelationType.ofName name = .ok kind) (heven : n % 2 = 0) (hs : 0 ≤ shift)
    (hlt : 2 * shift < n) (hlen : (n : ℤ) ≤ windowLength s1 s2 0 shift) :
    correlateLinear s1 s2 0 shift (some n) name true =
      .ok (paddedAxis n, (paddedAxis n).map fun l =>
        if -shift ≤ l ∧ l ≤ shift then windowSum kind s1 s2 (windowStart 0 shift) n l else 0) := by
  rw [windowLength] at hlen
  have hloop := foldlM_linearStep kind hs hlen
  rw [← zeroPadding_eq heven hs hlt, ← linearAxis_zero]
  unfold correlateLinear
  simp only [hname, bind, Except.bind, Option.getD_some]
  rw [if_neg (not_lt.2 hlen)]
  simp only [zeros, if_neg (show ¬ 2 * shift + 1 < 0 by omega), pure, Except.pure]
  rw [hloop]
  rfl

/-- **The padded correlation can be compared** with the circular one of
signals as long as the window: on their axis, the values at the lags
searched and zeros at all others. -/
def ComparesWithCircular (s1 s2 : List ℚ) (shift : ℤ) (n : ℕ) (name : String) : Prop :=
  ∃ axis corr plainAxis plain,
    correlateLinear s1 s2 0 shift (some n) name true = .ok (axis, corr) ∧
    correlateLinear s1 s2 0 shift (some n) name false = .ok (plainAxis, plain) ∧
    axis.length = n ∧ corr.length = n ∧
    (∀ c1 c2 : List ℚ, c1.length = n → c2.length = n → ∀ circularAxis circular,
      correlateCircular c1 c2 = .ok (circularAxis, circular) → axis = circularAxis) ∧
    ∀ l ∈ axis, labelValue axis corr l =
      if -shift ≤ l ∧ l ≤ shift then labelValue plainAxis plain l else 0

/-- **The padded axis is never that of the circular correlation.** -/
theorem not_comparesWithCircular (s1 s2 : List ℚ) (shift : ℤ) (hs : 0 ≤ shift) (n : ℕ)
    (heven : n % 2 = 0) (hlt : 2 * shift < n) (hlen : (n : ℤ) ≤ windowLength s1 s2 0 shift)
    (name : String) (kind : CorrelationType) (hname : CorrelationType.ofName name = .ok kind) :
    ¬ ComparesWithCircular s1 s2 shift n name := by
  rintro ⟨axis, corr, plainAxis, plain, hrun, -, -, -, hcircular, -⟩
  obtain ⟨rfl, rfl⟩ := ok_pair_inj (correlateLinear_padded hname heven hs hlt hlen) hrun
  have hzeros : (List.replicate n (0 : ℚ)).length = n := List.length_replicate ..
  have haxis := hcircular _ _ hzeros hzeros _ _
    (correlateCircular_even (by omega) heven hzeros hzeros)
  -- the last label of the padded axis is behind the circular one
  have hmem : (n : ℤ) / 2 ∈ paddedAxis n := mem_arange.2 (by omega)
  rw [haxis, mem_arange] at hmem
  omega

/-- Signals of four samples, a window of two. -/
theorem not_comparesWithCircular_four :
    ¬ ComparesWithCircular [1, 2, 3, 4] [5, 6, 7, 8] 0 2 "DC" :=
  not_comparesWithCircular [1, 2, 3, 4] [5, 6, 7, 8] 0 le_rfl 2 rfl (by decide) (by decide) "DC" .DC
    rfl

/-- Signals of two samples: the labels are zero and one, and those of the
circular correlation minus one and zero. -/
theorem not_comparesWithCircular_two : ¬ ComparesWithCircular [1, 2] [3, 4] 0 2 "DC" := by
  rintro ⟨axis, corr, plainAxis, plain, hrun, -, -, -, hcircular, -⟩
  have hok : correlateLinear [1, 2] [3, 4] 0 0 (some 2) "DC" true = .ok ([0, 1], [11, 0]) := by
    decide +kernel
  obtain ⟨rfl, rfl⟩ := ok_pair_inj hok hrun
  have haxis := hcircular [1, 2] [3, 4] rfl rfl [-1, 0] [10, 11] (by decide +kernel)
  revert haxis
  decide

end Delay

end WrCalibration
