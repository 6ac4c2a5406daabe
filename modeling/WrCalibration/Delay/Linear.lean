import WrCalibration.Delay.Circular
import Mathlib.Algebra.BigOperators.Intervals

/-!
# What the linear correlation computes

Every pass of the loop cuts a window out of the first signal and takes
the second one from a boundary on, without a wrap: `linearStep_eq`. The
passes write the result from its last entry to its first, so the entry
at a label is the sum over the window at that lag (`correlateLinear_eq`),
and where the first signal vanishes outside the window this is the
circular correlation.
-/

namespace WrCalibration

namespace Delay

open Python Finset

variable {s1 s2 : List ℚ} {center shift : ℤ}

/-- The start of the window in the first signal. -/
def windowStart (center shift : ℤ) : ℤ := max 0 (shift + center)

/-- The sum over the `len` sample pairs of the window at lag `l`. -/
def windowSum (kind : CorrelationType) (s1 s2 : List ℚ) (a : ℤ) (len : ℕ) (l : ℤ) : ℚ :=
  ∑ j ∈ range len, kind.kernel (s1.getD (a + j).toNat 0) (s2.getD (a + j - l).toNat 0)

/-- The sum of an array written as a range. -/
theorem sum_map_range (f : ℕ → ℚ) (n : ℕ) : ((List.range n).map f).sum = ∑ i ∈ range n, f i := rfl

/-! ## One pass -/

/-- The shifted indices take the second signal from the boundary on, and
then its beginning. -/
theorem take_shifted (s2 : List ℚ) (b : ℕ) :
    take s2 (sliceTo (arange b s2.length ++ arange 0 b) s2.length) .raise =
      .ok (s2.drop b ++ s2.take b) := by
  have h0 := arange_natCast 0 b
  rw [Nat.sub_zero, Nat.cast_zero] at h0
  rw [sliceTo_natCast (by simp; omega), arange_natCast, h0, ← List.map_append, ← List.map_take]
  rcases Nat.le_total b s2.length with hb | hb
  · rw [List.take_of_length_le (by simp; omega), take_natCast 0 (by simp; omega), List.map_append,
      map_getD_range' (by omega), map_getD_range' (by omega), List.drop_zero,
      List.take_of_length_le (by simp)]
  · -- a boundary behind the signal leaves the beginning only
    rw [Nat.sub_eq_zero_of_le hb, List.range'_zero, List.nil_append,
      List.take_range'_of_length_ge hb, take_natCast 0 (by simp), map_getD_range' (by omega),
      List.drop_zero, List.drop_of_length_le hb, List.nil_append, List.take_length,
      List.take_of_length_le hb]

/-- The window of each signal, paired up, is the sum over the window. -/
theorem sum_zipWith_window (kind : CorrelationType) {a b len : ℕ} (ha : a + len ≤ s1.length)
    (hb : b + len ≤ s2.length) :
    (List.zipWith kind.kernel ((s1.take (a + len)).drop a) ((s2.drop b).take len)).sum =
      ∑ j ∈ range len, kind.kernel (s1.getD (a + j) 0) (s2.getD (b + j) 0) := by
  rw [← sum_map_range]
  refine congrArg List.sum (List.ext_getElem (by simp; omega) fun m hm _ => ?_)
  simp only [List.length_zipWith, List.length_drop, List.length_take] at hm
  simp only [List.getElem_zipWith, List.getElem_drop, List.getElem_take, List.getElem_map,
    List.getElem_range]
  rw [List.getD_eq_getElem _ _ (by omega), List.getD_eq_getElem _ _ (by omega)]

/-- A pass cuts the window out of the first signal and reads the second
one from the boundary of its lag on. -/
theorem linearStep_cut (kind : CorrelationType) (w : ℤ) (corr : List ℚ) {k : ℤ} {b : ℕ}
    (hb : windowStart center shift - (center - k) = b) :
    linearStep s1 s2 center shift w kind corr k =
      broadcast kind.kernel
          (slice s1 (windowStart center shift) (windowStart center shift + w))
          (sliceTo (s2.drop b ++ s2.take b) w) >>=
        fun terms => setItem corr (shift - k) terms.sum := by
  -- both sides of the case split name the same window start and boundary
  have hbounds : (if shift + center < 0 then ((0 : ℤ), w, k + shift + |shift + center|)
      else (shift + center, shift + center + w, k + shift)) =
        (windowStart center shift, windowStart center shift + w, (b : ℤ)) := by
    rw [← hb]
    unfold windowStart
    split
    · rename_i h
      rw [abs_of_neg h, max_eq_left h.le, zero_add]
      congr 2
      ring
    · rename_i h
      rw [max_eq_right (not_lt.1 h)]
      congr 2
      ring
  unfold linearStep
  simp only [hbounds]
  rw [take_shifted]
  rfl

/-- **One pass of the loop** writes the sum at the lag `center - k`. -/
theorem linearStep_eq (kind : CorrelationType) {len : ℕ}
    (hlen : (len : ℤ) ≤ min (s1.length : ℤ) s2.length - |center| - 2 * shift) {corr : List ℚ}
    (hcorr : (corr.length : ℤ) = 2 * shift + 1) {k : ℤ} (hlo : -shift ≤ k) (hhi : k ≤ shift) :
    linearStep s1 s2 center shift len kind corr k =
      .ok (corr.set (shift - k).toNat
        (windowSum kind s1 s2 (windowStart center shift) len (center - k))) := by
  have habs := neg_abs_le center
  have habs' := le_abs_self center
  have hm1 := min_le_left (s1.length : ℤ) s2.length
  have hm2 := min_le_right (s1.length : ℤ) s2.length
  obtain ⟨a, ha⟩ := Int.eq_ofNat_of_zero_le (show 0 ≤ windowStart center shift from le_max_left ..)
  obtain ⟨b, hb⟩ := Int.eq_ofNat_of_zero_le
    (show 0 ≤ windowStart center shift - (center - k) by unfold windowStart; omega)
  have hab : (a : ℤ) + len ≤ s1.length := by rw [← ha]; unfold windowStart; omega
  have hbb : (b : ℤ) + len ≤ s2.length := by rw [← hb]; unfold windowStart; omega
  have hcut : slice s1 (a : ℤ) (a + len) = (s1.take (a + len)).drop a := by
    rw [← Nat.cast_add, slice_natCast (by omega) (by omega)]
  have hshift : sliceTo (s2.drop b ++ s2.take b) (len : ℤ) = (s2.drop b).take len := by
    rw [sliceTo_natCast (by simp; omega), List.take_append_of_le_length (by simp; omega)]
  have hset := setItem_natCast (show (shift - k).toNat < corr.length by omega)
    (windowSum kind s1 s2 (windowStart center shift) len (center - k))
  rw [Int.toNat_of_nonneg (by omega)] at hset
  have hsum : (List.zipWith kind.kernel ((s1.take (a + len)).drop a) ((s2.drop b).take len)).sum =
      windowSum kind s1 s2 (windowStart center shift) len (center - k) := by
    rw [sum_zipWith_window kind (by omega) (by omega), windowSum]
    refine sum_congr rfl fun j _ => ?_
    congr 2
    · omega
    · omega
  rw [linearStep_cut kind len corr hb, hshift, ha, hcut, broadcast_of_length_eq _ (by simp; omega),
    ← ha]
  simp only [bind, Except.bind, hsum]
  exact hset

/-! ## The whole loop -/

/-- The labels of the delay axis. -/
def linearAxis (center shift : ℤ) : List ℤ := (arange (-shift) (shift + 1)).map (· + center)

theorem mem_linearAxis {l : ℤ} :
    l ∈ linearAxis center shift ↔ center - shift ≤ l ∧ l ≤ center + shift := by
  simp only [linearAxis, List.mem_map, mem_arange]
  constructor
  · rintro ⟨k, hk, rfl⟩
    omega
  · intro h
    exact ⟨l - center, by omega, by omega⟩

/-- The loop, run to its end. -/
theorem foldlM_linearStep (kind : CorrelationType) {len : ℕ} (hs : 0 ≤ shift)
    (hlen : (len : ℤ) ≤ min (s1.length : ℤ) s2.length - |center| - 2 * shift) :
    (arange (-shift) (shift + 1)).foldlM (linearStep s1 s2 center shift len kind)
        (List.replicate (2 * shift + 1).toNat 0) =
      .ok ((linearAxis center shift).map
        (windowSum kind s1 s2 (windowStart center shift) len)) := by
  set v : ℤ → ℚ := fun k => windowSum kind s1 s2 (windowStart center shift) len (center - k)
    with hv
  have hstep : ∀ k ∈ arange (-shift) (shift + 1), ∀ corr : List ℚ,
      corr.length = (2 * shift + 1).toNat → linearStep s1 s2 center shift len kind corr k =
        .ok (corr.set (shift - k).toNat (v k)) := by
    intro k hk corr hcorr
    rw [mem_arange] at hk
    exact linearStep_eq kind hlen (by omega) (by omega) (by omega)
  obtain ⟨n, hn⟩ := Int.eq_ofNat_of_zero_le hs
  rw [foldlM_set (List.length_replicate ..) hstep, arange, List.foldl_map,
    show (shift + 1 - -shift).toNat = 2 * n + 1 by omega,
    show (2 * shift + 1).toNat = 2 * n + 1 by omega]
  -- the inverted index counts down from the end of the array
  have hfun : (fun (acc : List ℚ) (i : ℕ) => acc.set (shift - (-shift + (i : ℤ))).toNat
      (v (-shift + i))) = fun acc i => acc.set (2 * n + 1 - 1 - i) (v (-shift + i)) := by
    funext acc i
    congr 1
    omega
  rw [hfun, foldl_set_reverse 0 fun i : ℕ => v (-shift + i)]
  refine congrArg Except.ok (List.ext_getElem (by simp [linearAxis]; omega) fun p hp _ => ?_)
  simp only [List.length_map, List.length_range] at hp
  simp only [linearAxis, List.map_map, List.getElem_map, List.getElem_range, getElem_arange,
    Function.comp_apply, hv]
  congr 1
  omega

/-- **What the linear correlation returns**: at every label, the sum over
the window at that lag. -/
theorem correlateLinear_eq {name : String} {kind : CorrelationType} {len : ℕ} {length : Option ℤ}
    (hname : CorrelationType.ofName name = .ok kind) (hs : 0 ≤ shift)
    (hlength : length.getD (min (s1.length : ℤ) s2.length - |center| - 2 * shift) = len)
    (hlen : (len : ℤ) ≤ min (s1.length : ℤ) s2.length - |center| - 2 * shift) :
    correlateLinear s1 s2 center shift length name false = .ok (linearAxis center shift,
      (linearAxis center shift).map (windowSum kind s1 s2 (windowStart center shift) len)) := by
  unfold correlateLinear
  simp only [hname, hlength, bind, Except.bind]
  rw [if_neg (not_lt.2 hlen)]
  simp only [zeros, if_neg (show ¬ 2 * shift + 1 < 0 by omega), pure, Except.pure]
  rw [foldlM_linearStep kind hs hlen]
  rfl

/-! ## Against the circular correlation -/

/-- Over a first signal that vanishes outside the window, the window sum
is the circular one. -/
theorem windowSum_eq_circularSum {n len : ℕ} (h1 : s1.length = n) (h2 : s2.length = n)
    (hlen : (len : ℤ) ≤ n - |center| - 2 * shift) (hs : 0 ≤ shift)
    (hz : ∀ i < n, ¬ (windowStart center shift ≤ i ∧ (i : ℤ) < windowStart center shift + len) →
      s1.getD i 0 = 0) {l : ℤ} (hlo : center - shift ≤ l) (hhi : l ≤ center + shift) :
    windowSum .DC s1 s2 (windowStart center shift) len l = circularSum s1 s2 l := by
  have habs := neg_abs_le center
  have habs' := le_abs_self center
  obtain ⟨a, ha⟩ := Int.eq_ofNat_of_zero_le (show 0 ≤ windowStart center shift from le_max_left ..)
  have hal : (a : ℤ) - l ≥ 0 ∧ (a : ℤ) - l + len ≤ n ∧ (a : ℤ) + len ≤ n := by
    rw [← ha]; unfold windowStart; omega
  rw [ha] at hz ⊢
  calc windowSum .DC s1 s2 a len l
      = ∑ j ∈ range len, s1.getD (a + j) 0 * cyc s2 ((a + j : ℕ) - l) := by
        refine sum_congr rfl fun j hj => ?_
        have := mem_range.1 hj
        obtain ⟨c, hc⟩ := Int.eq_ofNat_of_zero_le (show 0 ≤ (a : ℤ) + j - l by omega)
        rw [show ((a + j : ℕ) : ℤ) - l = (c : ℕ) by push_cast; omega, cyc_natCast (by omega),
          CorrelationType.kernel, hc]
        congr 2
    _ = ∑ i ∈ Ico a (a + len), s1.getD i 0 * cyc s2 (i - l) := by
        rw [sum_Ico_eq_sum_range, Nat.add_sub_cancel_left]
    _ = circularSum s1 s2 l := by
        refine sum_subset (fun i hi => ?_) fun i hi hout => ?_
        · rw [mem_Ico] at hi
          exact mem_range.2 (by omega)
        · rw [mem_range, h1] at hi
          rw [mem_Ico] at hout
          rw [hz i hi (by omega), zero_mul]

/-- **Linear and circular correlation agree** where both are defined: for
a first signal that vanishes outside the window, the values at labels
that agree modulo the length are equal. -/
theorem correlateLinear_eq_correlateCircular (n : ℕ) (heven : n % 2 = 0) (s1 s2 : List ℚ)
    (h1 : s1.length = n) (h2 : s2.length = n) (center shift : ℤ) (hs : 0 ≤ shift)
    (hw : 1 ≤ n - |center| - 2 * shift)
    (hz : ∀ i : ℕ, i < n → ¬ (max 0 (shift + center) ≤ i ∧
      (i : ℤ) < max 0 (shift + center) + (n - |center| - 2 * shift)) → s1.getD i 0 = 0) :
    ∃ axis corr caxis ccorr,
      correlateLinear s1 s2 center shift none "DC" = .ok (axis, corr) ∧
      correlateCircular s1 s2 = .ok (caxis, ccorr) ∧
      ∀ l, center - shift ≤ l → l ≤ center + shift → l ∈ axis ∧
        (∃! l', l' ∈ caxis ∧ (n : ℤ) ∣ l' - l) ∧
        ∀ l' ∈ caxis, (n : ℤ) ∣ l' - l →
          labelValue axis corr l = labelValue caxis ccorr l' := by
  have habs := abs_nonneg center
  obtain ⟨len, hlen⟩ := Int.eq_ofNat_of_zero_le (show 0 ≤ (n : ℤ) - |center| - 2 * shift by omega)
  have hmin : min (s1.length : ℤ) s2.length - |center| - 2 * shift = len := by
    rw [h1, h2, min_self, hlen]
  refine ⟨_, _, _, _, correlateLinear_eq (show CorrelationType.ofName "DC" = .ok .DC from rfl) hs
    (by simpa using hmin) hmin.ge, correlateCircular_even (by omega) heven h1 h2,
    fun l hlo hhi => ?_⟩
  have hmem : l ∈ linearAxis center shift := mem_linearAxis.2 ⟨hlo, hhi⟩
  -- the label of the circular axis is the centred remainder
  have hdm := Int.emod_add_mul_ediv (l + n / 2) n
  have hnn := Int.emod_nonneg (l + n / 2) (show (n : ℤ) ≠ 0 by omega)
  have hlt := Int.emod_lt_of_pos (l + n / 2) (show (0 : ℤ) < n by omega)
  refine ⟨hmem, ⟨(l + n / 2) % n - n / 2, ⟨mem_arange.2 (by omega), ?_⟩, ?_⟩, ?_⟩
  · refine ⟨-((l + n / 2) / n), ?_⟩
    rw [mul_neg]
    omega
  · rintro l' ⟨hl', hdvd⟩
    refine eq_of_mem_axis hl' (mem_arange.2 (by omega)) ?_
    obtain ⟨q, hq⟩ := hdvd
    refine ⟨q + (l + n / 2) / n, ?_⟩
    rw [mul_add, ← hq]
    omega
  · intro l' hl' hdvd
    rw [labelValue_map hmem, labelValue_map hl', circularSum_congr h1 h2 hdvd]
    refine windowSum_eq_circularSum h1 h2 (by rw [hlen]) hs (fun i hi hout => hz i hi ?_)
      hlo hhi
    rw [hlen]
    exact hout

/-- A pulse inside the window of length two at center one. -/
theorem correlateLinear_eq_correlateCircular_six :
    ∃ axis corr caxis ccorr,
      correlateLinear [0, 0, 5, 7, 0, 0] [1, 2, 3, 4, 5, 6] 1 1 none "DC" = .ok (axis, corr) ∧
      correlateCircular [0, 0, 5, 7, 0, 0] [1, 2, 3, 4, 5, 6] = .ok (caxis, ccorr) ∧
      ∀ l, (1 : ℤ) - 1 ≤ l → l ≤ 1 + 1 → l ∈ axis ∧
        (∃! l', l' ∈ caxis ∧ ((6 : ℕ) : ℤ) ∣ l' - l) ∧
        ∀ l' ∈ caxis, ((6 : ℕ) : ℤ) ∣ l' - l →
          labelValue axis corr l = labelValue caxis ccorr l' :=
  correlateLinear_eq_correlateCircular 6 rfl [0, 0, 5, 7, 0, 0] [1, 2, 3, 4, 5, 6] rfl rfl 1 1
    (by decide) (by decide) (by decide +kernel)

end Delay

end WrCalibration
