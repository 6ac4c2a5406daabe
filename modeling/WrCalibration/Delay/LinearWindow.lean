import WrCalibration.Delay.Linear

/-!
# The window of the linear correlation

A window that fits is never wrapped around: every index it reads is one of
the signal it reads from, and the value at a label is the sum over the
window at that lag. A length that is given is compared with the window that
fits; no length is taken to be that of the window itself, so that a window
of no or fewer samples is not refused by the comparison, and it is left to
the cuts of the signals whether the call raises.
-/

namespace WrCalibration

namespace Delay

open Python Finset

variable {s1 s2 : List ℚ} {center shift : ℤ}

/-- The samples that are left of the shorter signal. -/
def windowLength (s1 s2 : List ℚ) (center shift : ℤ) : ℤ :=
  min (s1.length : ℤ) s2.length - |center| - 2 * shift

theorem windowStart_nonneg (center shift : ℤ) : 0 ≤ windowStart center shift := le_max_left ..

/-! ## A window that fits -/

/-- **No sample wraps around**: the indices of the window are indices of
the signals at every lag. -/
theorem window_bounds {len j : ℕ} (hs : 0 ≤ shift)
    (hlen : (len : ℤ) ≤ windowLength s1 s2 center shift) (hj : j < len) {l : ℤ}
    (hlo : center - shift ≤ l) (hhi : l ≤ center + shift) :
    0 ≤ windowStart center shift + j ∧ windowStart center shift + j < s1.length ∧
      0 ≤ windowStart center shift + j - l ∧ windowStart center shift + j - l < s2.length := by
  have habs := neg_abs_le center
  have habs' := le_abs_self center
  unfold windowLength at hlen
  unfold windowStart
  omega

theorem length_linearAxis (hs : 0 ≤ shift) :
    ((linearAxis center shift).length : ℤ) = 2 * shift + 1 := by
  rw [linearAxis, List.length_map, length_arange]
  omega

/-- **The values of the linear correlation** stand at the labels of their
lags, and are sums over the window without a wrap. -/
theorem correlateLinear_window (s1 s2 : List ℚ) (center shift : ℤ) (hs : 0 ≤ shift) (len : ℕ)
    (hlen : (len : ℤ) ≤ windowLength s1 s2 center shift) (length : Option ℤ)
    (hlength : length.getD (windowLength s1 s2 center shift) = len) :
    ∃ axis direct square,
      correlateLinear s1 s2 center shift length "DC" = .ok (axis, direct) ∧
      correlateLinear s1 s2 center shift length "ASDF" = .ok (axis, square) ∧
      (direct.length : ℤ) = 2 * shift + 1 ∧ (square.length : ℤ) = 2 * shift + 1 ∧
      ∀ l, center - shift ≤ l → l ≤ center + shift → l ∈ axis ∧
        (∀ j < len, 0 ≤ max 0 (shift + center) + j ∧
          max 0 (shift + center) + j < s1.length ∧
          0 ≤ max 0 (shift + center) + j - l ∧ max 0 (shift + center) + j - l < s2.length) ∧
        labelValue axis direct l =
          ∑ j ∈ range len, s1.getD (max 0 (shift + center) + j).toNat 0 *
            s2.getD (max 0 (shift + center) + j - l).toNat 0 ∧
        labelValue axis square l =
          ∑ j ∈ range len, (s1.getD (max 0 (shift + center) + j).toNat 0 -
            s2.getD (max 0 (shift + center) + j - l).toNat 0) ^ 2 := by
  refine ⟨linearAxis center shift, _, _,
    correlateLinear_eq (show CorrelationType.ofName "DC" = .ok .DC from rfl) hs hlength hlen,
    correlateLinear_eq (show CorrelationType.ofName "ASDF" = .ok .ASDF from rfl) hs hlength hlen,
    ?_, ?_, fun l hlo hhi => ?_⟩
  · rw [List.length_map, length_linearAxis hs]
  · rw [List.length_map, length_linearAxis hs]
  · have hmem : l ∈ linearAxis center shift := mem_linearAxis.2 ⟨hlo, hhi⟩
    exact ⟨hmem, fun j hj => window_bounds hs hlen hj hlo hhi, labelValue_map hmem,
      labelValue_map hmem⟩

/-- Two of four samples, around a center of minus one. -/
theorem correlateLinear_window_four :
    ∃ axis direct square,
      correlateLinear [1, 2, 3, 4] [5, 6, 7, 8, 9] (-1) 0 (some 2) "DC" = .ok (axis, direct) ∧
      correlateLinear [1, 2, 3, 4] [5, 6, 7, 8, 9] (-1) 0 (some 2) "ASDF" = .ok (axis, square) ∧
      (direct.length : ℤ) = 2 * 0 + 1 ∧ (square.length : ℤ) = 2 * 0 + 1 ∧
      ∀ l : ℤ, -1 - 0 ≤ l → l ≤ -1 + 0 → l ∈ axis ∧
        (∀ j : ℕ, j < 2 → 0 ≤ max 0 (0 + -1) + (j : ℤ) ∧
          max 0 (0 + -1) + (j : ℤ) < ([1, 2, 3, 4] : List ℚ).length ∧
          0 ≤ max 0 (0 + -1) + (j : ℤ) - l ∧
          max 0 (0 + -1) + (j : ℤ) - l < ([5, 6, 7, 8, 9] : List ℚ).length) ∧
        labelValue axis direct l =
          ∑ j ∈ range 2, ([1, 2, 3, 4] : List ℚ).getD (max 0 (0 + -1) + (j : ℤ)).toNat 0 *
            ([5, 6, 7, 8, 9] : List ℚ).getD (max 0 (0 + -1) + (j : ℤ) - l).toNat 0 ∧
        labelValue axis square l =
          ∑ j ∈ range 2, (([1, 2, 3, 4] : List ℚ).getD (max 0 (0 + -1) + (j : ℤ)).toNat 0 -
            ([5, 6, 7, 8, 9] : List ℚ).getD (max 0 (0 + -1) + (j : ℤ) - l).toNat 0) ^ 2 :=
  correlateLinear_window [1, 2, 3, 4] [5, 6, 7, 8, 9] (-1) 0 le_rfl 2 (by decide) (some 2) rfl

/-! ## A window that does not fit -/

/-- The samples that the cuts of the signals keep under a negative length:
a slice bound below zero counts from the end. -/
def firstCut (s1 : List ℚ) (a w : ℤ) : ℕ := if a + w < 0 then (s1.length + w).toNat else 0

/-- The samples of the second signal under a negative length. -/
def secondCut (s2 : List ℚ) (w : ℤ) : ℕ := (s2.length + w).toNat

theorem length_slice_negative (s1 : List ℚ) {a w : ℤ} (ha : 0 ≤ a) (hw : w < 0) :
    (slice s1 a (a + w)).length = firstCut s1 a w := by
  unfold Python.slice firstCut sliceIndex
  rw [List.length_drop, List.length_take, if_neg (not_lt.2 ha)]
  split
  · omega
  · omega

theorem length_sliceTo_negative {w : ℤ} (hw : w < 0) :
    (sliceTo s2 w).length = secondCut s2 w := by
  rw [sliceTo, sliceIndex, if_pos hw, List.length_take, secondCut]
  omega

/-- The cuts of a negative length do not pair up. -/
def CutsRefused (s1 s2 : List ℚ) (a w : ℤ) : Prop :=
  firstCut s1 a w ≠ secondCut s2 w ∧ firstCut s1 a w ≠ 1 ∧ secondCut s2 w ≠ 1

/-- The second signal keeps its length when it is turned. -/
theorem length_sliceTo_turned (s2 : List ℚ) (b : ℕ) {w : ℤ} (hw : w < 0) :
    (sliceTo (s2.drop b ++ s2.take b) w).length = secondCut s2 w := by
  rw [length_sliceTo_negative hw, secondCut, secondCut, List.length_append, List.length_drop,
    List.length_take]
  omega

/-- The boundary of a lag is not below zero. -/
theorem exists_boundary (center : ℤ) {k : ℤ} (hlo : -shift ≤ k) :
    ∃ b : ℕ, windowStart center shift - (center - k) = b :=
  Int.eq_ofNat_of_zero_le (by unfold windowStart; omega)

/-- A pass over cuts that do not pair up raises. -/
theorem linearStep_refused (kind : CorrelationType) {w : ℤ} (hw : w < 0)
    (hcuts : CutsRefused s1 s2 (windowStart center shift) w) (corr : List ℚ) {k : ℤ}
    (hlo : -shift ≤ k) :
    linearStep s1 s2 center shift w kind corr k = .error .valueError := by
  obtain ⟨b, hb⟩ := exists_boundary center hlo
  have h1 := length_slice_negative s1 (windowStart_nonneg center shift) hw
  have h2 := length_sliceTo_turned s2 b hw
  obtain ⟨hne, hone, hone'⟩ := hcuts
  rw [linearStep_cut kind w corr hb, broadcast_of_length_ne]
  · rfl
  · exact fun heq => hne (h1.symm.trans (heq.trans h2))
  · exact fun heq => hone (h1.symm.trans heq)
  · exact fun heq => hone' (h2.symm.trans heq)

/-- Every other pass over a window of no or fewer samples returns. -/
theorem exists_linearStep (kind : CorrelationType) {w : ℤ} (hw : w ≤ 0)
    (hcuts : ¬ (w < 0 ∧ CutsRefused s1 s2 (windowStart center shift) w)) {corr : List ℚ}
    (hcorr : (corr.length : ℤ) = 2 * shift + 1) {k : ℤ} (hlo : -shift ≤ k) (hhi : k ≤ shift) :
    ∃ corr', linearStep s1 s2 center shift w kind corr k = .ok corr' ∧
      (corr'.length : ℤ) = 2 * shift + 1 := by
  obtain ⟨b, hb⟩ := exists_boundary center hlo
  have hpair : ∃ zs, broadcast kind.kernel
      (slice s1 (windowStart center shift) (windowStart center shift + w))
      (sliceTo (s2.drop b ++ s2.take b) w) = .ok zs := by
    refine exists_broadcast _ ?_
    rcases hw.lt_or_eq with hneg | rfl
    · rw [length_sliceTo_turned s2 b hneg,
        length_slice_negative s1 (windowStart_nonneg center shift) hneg]
      by_contra hno
      push Not at hno
      exact hcuts ⟨hneg, hno⟩
    · -- a window of no samples takes none of either signal
      left
      rw [add_zero, slice_self, sliceTo_zero]
  obtain ⟨terms, hterms⟩ := hpair
  obtain ⟨m, hm⟩ := Int.eq_ofNat_of_zero_le (show 0 ≤ shift - k by omega)
  refine ⟨corr.set m terms.sum, ?_, by rwa [List.length_set]⟩
  rw [linearStep_cut kind w corr hb, hterms, hm]
  exact setItem_natCast (by omega) _

/-- **What decides a window that does not fit**: the call raises if and
only if the cuts do not pair up. -/
theorem correlateLinear_unfit {name : String} {kind : CorrelationType}
    (hname : CorrelationType.ofName name = .ok kind) (hs : 0 ≤ shift)
    (hw : windowLength s1 s2 center shift ≤ 0) :
    (∃ e, correlateLinear s1 s2 center shift none name false = .error e) ↔
      windowLength s1 s2 center shift < 0 ∧
        CutsRefused s1 s2 (windowStart center shift) (windowLength s1 s2 center shift) := by
  obtain ⟨w, hwdef⟩ : ∃ w, windowLength s1 s2 center shift = w := ⟨_, rfl⟩
  have hunfold : correlateLinear s1 s2 center shift none name false =
      (arange (-shift) (shift + 1)).foldlM (linearStep s1 s2 center shift w kind)
        (List.replicate (2 * shift + 1).toNat 0) >>=
        fun corr => pure (linearAxis center shift, corr) := by
    rw [windowLength] at hwdef
    unfold correlateLinear
    simp only [hname, bind, Except.bind, Option.getD_none, lt_self_iff_false, if_false, hwdef,
      zeros, if_neg (show ¬ 2 * shift + 1 < 0 by omega), pure, Except.pure]
    rfl
  rw [hunfold, hwdef]
  rw [hwdef] at hw
  constructor
  · rintro ⟨e, herr⟩
    by_contra hno
    have hreturns : ∃ corr, (arange (-shift) (shift + 1)).foldlM
        (linearStep s1 s2 center shift w kind) (List.replicate (2 * shift + 1).toNat 0) =
          .ok corr ∧ (corr.length : ℤ) = 2 * shift + 1 := by
      refine exists_foldlM (by rw [List.length_replicate]; omega) fun k hk corr hcorr => ?_
      rw [mem_arange] at hk
      exact exists_linearStep kind hw hno hcorr hk.1 (by omega)
    obtain ⟨corr, hrun, -⟩ := hreturns
    rw [hrun] at herr
    cases herr
  · rintro ⟨hneg, hcuts⟩
    rw [foldlM_error (List.ne_nil_of_length_pos (by rw [length_arange]; omega)) fun k hk =>
      linearStep_refused kind hneg hcuts _ (mem_arange.1 hk).1]
    exact ⟨_, rfl⟩

/-- **Impossible windows are refused**: the call raises if and only if no
window of a sample and of the given length fits, and what it returns are
sums over one number of sample pairs. -/
def RefusesImpossible (s1 s2 : List ℚ) (center shift : ℤ) (length : Option ℤ) (name : String)
    (kind : CorrelationType) : Prop :=
  ((∃ e, correlateLinear s1 s2 center shift length name false = .error e) ↔
    windowLength s1 s2 center shift < max 1 (length.getD 1)) ∧
  ∀ axis corr, correlateLinear s1 s2 center shift length name false = .ok (axis, corr) →
    (corr.length : ℤ) = 2 * shift + 1 ∧ ∃ len : ℕ, 1 ≤ len ∧ ∀ v ∈ corr, ∃ i j : ℕ,
      i + len ≤ s1.length ∧ j + len ≤ s2.length ∧
      v = ∑ t ∈ range len, kind.kernel (s1.getD (i + t) 0) (s2.getD (j + t) 0)

/-- A window that fits is not refused. -/
theorem refusesImpossible_of_fits {length : Option ℤ} {name : String} {kind : CorrelationType}
    (hname : CorrelationType.ofName name = .ok kind) (hs : 0 ≤ shift) {len : ℕ} (hpos : 1 ≤ len)
    (hlength : length.getD (windowLength s1 s2 center shift) = len)
    (hlen : (len : ℤ) ≤ windowLength s1 s2 center shift) :
    RefusesImpossible s1 s2 center shift length name kind := by
  have hrun := correlateLinear_eq hname hs hlength hlen
  have hfits : ¬ windowLength s1 s2 center shift < max 1 (length.getD 1) := by
    cases length with
    | none =>
      rw [Option.getD_none, max_self]
      omega
    | some L =>
      rw [Option.getD_some] at hlength ⊢
      omega
  refine ⟨iff_of_false ?_ hfits, fun axis corr hok => ?_⟩
  · rintro ⟨e, herr⟩
    rw [hrun] at herr
    cases herr
  · obtain ⟨rfl, rfl⟩ := ok_pair_inj hrun hok
    refine ⟨by rw [List.length_map, length_linearAxis hs], len, hpos, fun v hv => ?_⟩
    obtain ⟨l, hl, rfl⟩ := List.mem_map.1 hv
    obtain ⟨hlo, hhi⟩ := mem_linearAxis.1 hl
    have hfirst := window_bounds hs hlen (show 0 < len by omega) hlo hhi
    have hlast := window_bounds hs hlen (show len - 1 < len by omega) hlo hhi
    refine ⟨(windowStart center shift).toNat, (windowStart center shift - l).toNat, by omega,
      by omega, sum_congr rfl fun t _ => ?_⟩
    congr 2
    · omega
    · omega

/-- **When impossible windows are refused**: if a length is given, if a
window of a sample fits, or if the cuts of the negative length do not pair
up. -/
theorem refusesImpossible_iff (s1 s2 : List ℚ) (center shift : ℤ) (hs : 0 ≤ shift)
    (length : Option ℤ) (hlength : ∀ len ∈ length, 0 < len) (name : String)
    (kind : CorrelationType) (hname : CorrelationType.ofName name = .ok kind) :
    RefusesImpossible s1 s2 center shift length name kind ↔
      length ≠ none ∨ 1 ≤ windowLength s1 s2 center shift ∨
        (windowLength s1 s2 center shift < 0 ∧
          CutsRefused s1 s2 (windowStart center shift) (windowLength s1 s2 center shift)) := by
  cases length with
  | some L =>
    refine iff_of_true ?_ (.inl (Option.some_ne_none L))
    have hL := hlength L rfl
    rcases lt_or_ge (windowLength s1 s2 center shift) L with hlt | hge
    · -- the guard compares the window with the given length
      have herr : ∃ e, correlateLinear s1 s2 center shift (some L) name false = .error e := by
        rw [windowLength] at hlt
        unfold correlateLinear
        simp only [hname, bind, Except.bind, Option.getD_some]
        rw [if_pos hlt]
        exact ⟨_, rfl⟩
      refine ⟨iff_of_true herr (by rw [Option.getD_some]; omega), fun axis corr hok => ?_⟩
      obtain ⟨e, herr⟩ := herr
      rw [herr] at hok
      cases hok
    · obtain ⟨len, rfl⟩ := Int.eq_ofNat_of_zero_le hL.le
      exact refusesImpossible_of_fits hname hs (by omega) rfl hge
  | none =>
    rw [or_iff_right (not_not.2 rfl)]
    rcases lt_or_ge (windowLength s1 s2 center shift) 1 with hlt | hge
    · rw [or_iff_right (by omega), ← correlateLinear_unfit hname hs (by omega)]
      constructor
      · rintro ⟨hraise, -⟩
        exact hraise.2 (by rw [Option.getD_none]; omega)
      · intro herr
        refine ⟨iff_of_true herr (by rw [Option.getD_none]; omega), fun axis corr hok => ?_⟩
        obtain ⟨e, herr⟩ := herr
        rw [herr] at hok
        cases hok
    · obtain ⟨len, hlen⟩ := Int.eq_ofNat_of_zero_le
        (show 0 ≤ windowLength s1 s2 center shift by omega)
      exact iff_of_true
        (refusesImpossible_of_fits hname hs (by omega) (by rw [Option.getD_none, hlen]) hlen.ge)
        (.inl hge)

/-- A window of one sample over three. -/
theorem refusesImpossible_iff_three :
    RefusesImpossible [1, 2, 3] [4, 5, 6] 0 1 none "DC" .DC ↔
      (none : Option ℤ) ≠ none ∨ 1 ≤ windowLength [1, 2, 3] [4, 5, 6] 0 1 ∨
        (windowLength [1, 2, 3] [4, 5, 6] 0 1 < 0 ∧ CutsRefused [1, 2, 3] [4, 5, 6]
          (windowStart 0 1) (windowLength [1, 2, 3] [4, 5, 6] 0 1)) :=
  refusesImpossible_iff [1, 2, 3] [4, 5, 6] 0 1 (by decide) none (fun _ h => by cases h) "DC" .DC
    rfl

/-- Two samples leave no window around a shift of one, and the call returns
three sums over nothing. -/
theorem not_refusesImpossible_two : ¬ RefusesImpossible [1, 2] [3, 4] 0 1 none "DC" .DC := by
  rintro ⟨hraise, -⟩
  obtain ⟨e, herr⟩ := hraise.2 (by decide)
  have hok : correlateLinear [1, 2] [3, 4] 0 1 none "DC" false = .ok ([-1, 0, 1], [0, 0, 0]) := by
    decide +kernel
  rw [hok] at herr
  cases herr

end Delay

end WrCalibration
