import WrCalibration.Delay.Circular
import WrCalibration.Delay.PeakPosition

/-!
# What the peak search finds

`argrelmax` returns the strict interior maxima (`argrelmax_eq`), and the
search the nearest of them, the lower one of two at the same distance
(`nearestMaximumIndex_spec`). Over the correlation of a signal with its
delayed copy the entry at the delay is such a maximum, so a search that
starts there ends there.
-/

namespace WrCalibration

namespace Delay

open Python Finset Cyclic

variable {data : List ℚ} {m n : ℕ}

/-! ## The maxima -/

/-- A sample larger than both its neighbours. The ends of the data have
no neighbour on one side and do not count. -/
def IsStrictMax (data : List ℚ) (m : ℕ) : Prop :=
  0 < m ∧ m + 1 < data.length ∧ data.getD (m - 1) 0 < data.getD m 0 ∧
    data.getD (m + 1) 0 < data.getD m 0

instance : DecidablePred (IsStrictMax data) := fun _ => inferInstanceAs (Decidable (_ ∧ _))

/-- The comparison with both neighbours, clipped at the ends, holds at
the strict maxima. -/
theorem boolrelextrema_eq (data : List ℚ) :
    boolrelextrema data (fun x y => decide (y < x)) =
      .ok ((List.range data.length).map fun m => decide (IsStrictMax data m)) := by
  rcases eq_or_ne data [] with rfl | hne
  · rfl
  have hpos := List.length_pos_of_ne_nil hne
  have hres : List.zipWith (· && ·)
      (List.zipWith (· && ·) (List.replicate data.length true)
        (List.zipWith (fun x y => decide (y < x))
          ((arange 0 data.length).map fun i => data.getD (min i.toNat (data.length - 1)) 0)
          (((arange 0 data.length).map (· + ((1 : ℕ) : ℤ))).map fun i =>
            data.getD (min i.toNat (data.length - 1)) 0)))
      (List.zipWith (fun x y => decide (y < x))
        ((arange 0 data.length).map fun i => data.getD (min i.toNat (data.length - 1)) 0)
        (((arange 0 data.length).map (· - ((1 : ℕ) : ℤ))).map fun i =>
          data.getD (min i.toNat (data.length - 1)) 0)) =
      (List.range data.length).map fun m => decide (IsStrictMax data m) := by
    refine List.ext_getElem ?_ fun m _ hm => ?_
    · simp only [List.length_zipWith, List.length_replicate, List.length_map, length_arange,
        List.length_range, sub_zero, Int.toNat_natCast, min_self]
    have hlt : m < data.length := by rwa [List.length_map, List.length_range] at hm
    simp only [List.getElem_zipWith, List.getElem_map, getElem_arange, List.getElem_replicate,
      List.getElem_range, Bool.true_and]
    have e0 : min ((0 : ℤ) + (m : ℤ)).toNat (data.length - 1) = m := by omega
    have e1 : min ((0 : ℤ) + (m : ℤ) - ((1 : ℕ) : ℤ)).toNat (data.length - 1) = m - 1 := by omega
    rw [e0, e1, ← Bool.decide_and, decide_eq_decide, IsStrictMax]
    -- clipped, the last sample is its own neighbour and never a strict maximum
    rcases Nat.lt_or_ge (m + 1) data.length with hin | hend
    · rw [show min ((0 : ℤ) + (m : ℤ) + ((1 : ℕ) : ℤ)).toNat (data.length - 1) = m + 1 by omega]
      constructor
      · rintro ⟨hnext, hprev⟩
        refine ⟨Nat.pos_of_ne_zero ?_, hin, hprev, hnext⟩
        rintro rfl
        exact lt_irrefl _ hprev
      · rintro ⟨-, -, hprev, hnext⟩
        exact ⟨hnext, hprev⟩
    · rw [show min ((0 : ℤ) + (m : ℤ) + ((1 : ℕ) : ℤ)).toNat (data.length - 1) = m by omega]
      exact ⟨fun h => absurd h.1 (lt_irrefl _), fun h => absurd h.2.1 (by omega)⟩
  unfold boolrelextrema
  simp only [take_clip 0 hne, Nat.lt_irrefl, if_false, bind, Except.bind, pure, Except.pure,
    List.range'_one, boolrelextremaLoop, hres, ite_self]

/-- **`argrelmax` returns the strict maxima**, in order. -/
theorem argrelmax_eq (data : List ℚ) :
    argrelmax data = .ok ((List.range data.length).filter (IsStrictMax data)) := by
  set results := (List.range data.length).map fun m => decide (IsStrictMax data m) with hres
  have hwhere : whereTrue results = (List.range data.length).filter (IsStrictMax data) := by
    rw [whereTrue, hres, List.length_map, List.length_range]
    refine List.filter_congr fun m hm => ?_
    rw [List.getD_eq_getElem _ _ (by simpa using hm), List.getElem_map, List.getElem_range]
  unfold argrelmax argrelextrema
  rw [boolrelextrema_eq, ← hres]
  simp only [bind, Except.bind, pure, Except.pure]
  split
  · rw [hwhere]
  · rename_i hnone
    refine congrArg Except.ok (List.filter_eq_nil_iff.2 fun m hm hmax => hnone ?_).symm
    rw [List.any_eq_true]
    exact ⟨true, List.mem_map.2 ⟨m, hm, hmax⟩, rfl⟩

/-! ## The nearest maximum -/

/-- The first entry with the least value of `f`. -/
theorem exists_first_min {f : ℕ → ℤ} {xs : List ℕ} (hs : xs.Pairwise (· < ·)) {least : ℤ}
    (h : (xs.map f).min? = some least) :
    ∃ m ∈ xs, xs[(xs.map f).idxOf least]? = some m ∧
      ∀ m' ∈ xs, f m < f m' ∨ f m = f m' ∧ m ≤ m' := by
  obtain ⟨hmem, hle⟩ := List.min?_eq_some_iff.1 h
  have hidx : (xs.map f).idxOf least < xs.length := by
    simpa using List.idxOf_lt_length_of_mem hmem
  have hval : f xs[(xs.map f).idxOf least] = least := by
    have := List.getElem_idxOf (List.idxOf_lt_length_of_mem hmem)
    rwa [List.getElem_map] at this
  refine ⟨xs[(xs.map f).idxOf least], List.getElem_mem hidx, List.getElem?_eq_getElem hidx, ?_⟩
  intro m' hm'
  rw [hval]
  rcases (hle _ (List.mem_map_of_mem hm')).lt_or_eq with hlt | heq
  · exact Or.inl hlt
  · refine Or.inr ⟨heq, ?_⟩
    obtain ⟨k, hk, rfl⟩ := List.getElem_of_mem hm'
    rcases Nat.lt_or_ge k ((xs.map f).idxOf least) with hlt | hge
    · refine absurd heq.symm ?_
      have := List.not_of_lt_findIdx hlt
      simpa using this
    · exact (hs.imp Nat.le_of_lt).sortedLE.getElem_le_getElem_of_le hge

/-- **The search ends at the nearest maximum**, the lower one of two at
the same distance, and fails if there is none. -/
theorem nearestMaximumIndex_spec (data : List ℚ) (e : ℤ) :
    (∃ m, nearestMaximumIndex data [e] = .ok m ∧ IsStrictMax data m ∧
      ∀ m', IsStrictMax data m' →
        |(m : ℤ) - e| < |(m' : ℤ) - e| ∨ |(m : ℤ) - e| = |(m' : ℤ) - e| ∧ m ≤ m') ∨
    nearestMaximumIndex data [e] = .error .valueError ∧ ∀ m, ¬ IsStrictMax data m := by
  set maxima := (List.range data.length).filter (IsStrictMax data) with hmax
  have hmem : ∀ m, m ∈ maxima ↔ IsStrictMax data m := by
    intro m
    rw [hmax, List.mem_filter, List.mem_range, decide_eq_true_iff]
    exact ⟨fun h => h.2, fun h => ⟨by have := h.2.1; omega, h⟩⟩
  unfold nearestMaximumIndex
  rw [argrelmax_eq, ← hmax]
  simp only [bind, Except.bind, broadcast_singleton_right]
  rcases hmin : (maxima.map fun m : ℕ => |(m : ℤ) - e|).min? with _ | least
  · refine Or.inr ⟨rfl, fun m hm => ?_⟩
    rw [List.min?_eq_none_iff, List.map_eq_nil_iff] at hmin
    exact List.not_mem_nil (hmin ▸ (hmem m).2 hm)
  · obtain ⟨m, hm, hget, hle⟩ := exists_first_min (List.pairwise_lt_range.filter _) hmin
    refine Or.inl ⟨m, ?_, (hmem m).1 hm, fun m' hm' => hle m' ((hmem m').2 hm')⟩
    rw [← hmax] at hget
    simp only [hget]
    rfl

/-- **The nearest maximum** to an index: a strict interior maximum that no
other one is closer than, nor as close and lower. -/
def IsNearestMax (data : List ℚ) (index : ℤ) (m : ℕ) : Prop :=
  IsStrictMax data m ∧ ∀ m', IsStrictMax data m' → m' ≠ m →
    |(m : ℤ) - index| < |(m' : ℤ) - index| ∨
      |(m : ℤ) - index| = |(m' : ℤ) - index| ∧ m < m'

/-- There is one nearest maximum at most. -/
theorem IsNearestMax.unique {index : ℤ} {m₁ m₂ : ℕ} (h₁ : IsNearestMax data index m₁)
    (h₂ : IsNearestMax data index m₂) : m₁ = m₂ := by
  by_contra hne
  rcases h₁.2 m₂ h₂.1 (Ne.symm hne) with hlt | ⟨heq, hlt⟩
  · rcases h₂.2 m₁ h₁.1 hne with hlt' | ⟨heq', -⟩
    · exact lt_asymm hlt hlt'
    · exact hlt.ne' heq'
  · rcases h₂.2 m₁ h₁.1 hne with hlt' | ⟨-, hlt'⟩
    · exact hlt'.ne' heq
    · exact lt_asymm hlt hlt'

/-- **What `nearest_maximum_index` returns** is the nearest maximum, and it
raises exactly where a signal has none: end points and plateaus do not
count. -/
theorem nearestMaximumIndex_iff (data : List ℚ) (index : ℤ) :
    (∀ m, nearestMaximumIndex data [index] = .ok m ↔ IsNearestMax data index m) ∧
    ((∃ e, nearestMaximumIndex data [index] = .error e) ↔ ∀ m, ¬ IsStrictMax data m) := by
  rcases nearestMaximumIndex_spec data index with ⟨m, hrun, hmax, hle⟩ | ⟨hrun, hnone⟩
  · have hnear : IsNearestMax data index m := by
      refine ⟨hmax, fun m' hmax' hne => ?_⟩
      rcases hle m' hmax' with hlt | ⟨heq, hle'⟩
      · exact .inl hlt
      · exact .inr ⟨heq, lt_of_le_of_ne hle' (Ne.symm hne)⟩
    refine ⟨fun m' => ⟨fun hrun' => ?_, fun hnear' => ?_⟩, fun ⟨e, he⟩ => ?_, fun hnone => ?_⟩
    · obtain rfl := Except.ok.inj (hrun.symm.trans hrun')
      exact hnear
    · rw [hrun, hnear.unique hnear']
    · rw [hrun] at he
      cases he
    · exact absurd hmax (hnone m)
  · refine ⟨fun m' => ⟨fun hrun' => ?_, fun hnear' => ?_⟩, fun _ => hnone, fun _ => ⟨_, hrun⟩⟩
    · rw [hrun] at hrun'
      cases hrun'
    · exact absurd hnear'.1 (hnone m')

/-- A search that starts at a maximum ends there. -/
theorem nearestMaximumIndex_self (h : IsStrictMax data m) :
    nearestMaximumIndex data [(m : ℤ)] = .ok m := by
  rcases nearestMaximumIndex_spec data m with ⟨m', hrun, -, hle⟩ | ⟨-, hnone⟩
  · have := hle m h
    rw [sub_self, abs_zero] at this
    have hz : |(m' : ℤ) - m| = 0 := by
      have := abs_nonneg ((m' : ℤ) - m)
      omega
    rw [hrun, show m' = m by have := abs_eq_zero.1 hz; omega]
  · exact absurd h (hnone m)

/-! ## The estimate -/

/-- On an integer axis the estimate names the one sample with its label. -/
theorem estimateIndices_arange {lo hi : ℤ} {k : ℕ} (hk : k < (hi - lo).toNat) :
    estimateIndices ((arange lo hi).map fun l : ℤ => (l : ℚ)) 1 (lo + k : ℤ) = [(k : ℤ)] := by
  have hlen : ((arange lo hi).map fun l : ℤ => (l : ℚ)).length = (hi - lo).toNat := by simp
  have hfilter : (List.range (hi - lo).toNat).filter (fun m =>
      decide (((arange lo hi).map fun l : ℤ => (l : ℚ)).getD m 0 - (lo + k : ℤ) < 1 / 2) &&
        decide (-1 / 2 ≤ ((arange lo hi).map fun l : ℤ => (l : ℚ)).getD m 0 - (lo + k : ℤ))) =
      (List.range (hi - lo).toNat).filter (· = k) := by
    refine List.filter_congr fun m hm => ?_
    rw [List.mem_range] at hm
    rw [List.getD_eq_getElem _ _ (by simpa using hm), List.getElem_map, getElem_arange,
      ← Bool.decide_and, decide_eq_decide, ← Int.cast_sub, add_sub_add_left_eq_sub]
    constructor
    · rintro ⟨h1, h2⟩
      have h3 : (m : ℤ) - k < 1 := by
        have : (((m : ℤ) - k : ℤ) : ℚ) < 1 := by linarith
        exact_mod_cast this
      have h4 : -1 < (m : ℤ) - k := by
        have : (-1 : ℚ) < (((m : ℤ) - k : ℤ) : ℚ) := by linarith
        exact_mod_cast this
      omega
    · rintro rfl
      norm_num
  rw [estimateIndices, hlen, hfilter, List.filter_eq, List.count_eq_one_of_mem
    List.nodup_range (List.mem_range.2 hk)]
  rfl

/-- The search over an integer axis that is estimated at a maximum. -/
theorem peakSearch_arange {lo hi : ℤ} {k : ℕ} (hk : k < (hi - lo).toNat)
    (hstep : 1 < (hi - lo).toNat) (hmax : IsStrictMax data k) :
    peakSearch ((arange lo hi).map fun l : ℤ => (l : ℚ)) data none none none (lo + k : ℤ) =
      .ok k := by
  have hitem : ∀ j < (hi - lo).toNat,
      item ((arange lo hi).map fun l : ℤ => (l : ℚ)) j = .ok ((lo + j : ℤ) : ℚ) := by
    intro j hj
    have hlt : j < ((arange lo hi).map fun l : ℤ => (l : ℚ)).length := by simpa using hj
    rw [item_natCast hlt, List.getD_eq_getElem _ _ hlt, List.getElem_map, getElem_arange]
  have h0 := hitem 0 (by omega)
  have h1 := hitem 1 hstep
  rw [Nat.cast_zero] at h0
  rw [Nat.cast_one] at h1
  have hone : ((lo + 1 : ℤ) : ℚ) - ((lo + 0 : ℤ) : ℚ) = 1 := by push_cast; ring
  unfold peakSearch alternateAxis
  simp only [h0, h1, hone, bind, Except.bind, pure, Except.pure, estimateIndices_arange hk,
    nearestMaximumIndex_self hmax, hitem k hk]

/-! ## A signal and its delayed copy -/

/-- A signal delayed by `d` samples, its end wrapped to the front. -/
def delayed (s : List ℚ) (d : ℤ) : List ℚ :=
  (List.range s.length).map fun i : ℕ => s.getD ((i - d) % s.length).toNat 0

@[simp] theorem length_delayed (s : List ℚ) (d : ℤ) : (delayed s d).length = s.length := by
  simp [delayed]

theorem cyc_delayed {s : List ℚ} (hs : 0 < s.length) (d i : ℤ) :
    cyc (delayed s d) i = cyc s (i - d) := by
  have hlo := Int.emod_nonneg i (show (s.length : ℤ) ≠ 0 by omega)
  have hhi := Int.emod_lt_of_pos i (show (0 : ℤ) < s.length by omega)
  rw [cyc, cyc, length_delayed, List.getD_eq_getElem _ _ (by simp; omega)]
  simp only [delayed, List.getElem_map, List.getElem_range, Int.toNat_of_nonneg hlo]
  rw [Int.emod_sub_emod]

/-- The correlation with the delayed copy is the autocorrelation at the
lag plus the delay. -/
theorem circularSum_delayed {s : List ℚ} (hn : 0 < n) (h : s.length = n) (d l : ℤ) :
    circularSum s (delayed s d) l = circCorr n (cyc s) (cyc s) (l + d) := by
  rw [circularSum_eq_circCorr h, ← circCorr_delay]
  congr 1
  funext i
  exact cyc_delayed (by omega) d i

/-- A signal with two different samples differs from its copy moved by one
sample, in both directions. -/
theorem circCorr_neighbour_lt {s : List ℚ} (h : s.length = n) {i j : ℕ} (hi : i < n) (hj : j < n)
    (hne : s.getD i 0 ≠ s.getD j 0) :
    circCorr n (cyc s) (cyc s) 1 < circCorr n (cyc s) (cyc s) 0 ∧
      circCorr n (cyc s) (cyc s) (-1) < circCorr n (cyc s) (cyc s) 0 := by
  have hp : Function.Periodic (cyc s) n := h ▸ cyc_periodic s
  obtain ⟨k, hk⟩ : ∃ k, cyc s (k - 1) ≠ cyc s k := by
    by_contra hall
    push Not at hall
    refine hne ?_
    rw [← cyc_natCast (by omega), ← cyc_natCast (by omega)]
    exact eq_of_forall_pred_eq hall i j
  refine ⟨circCorr_self_lt hp (by omega) hk, circCorr_self_lt hp (by omega) (i := k - 1) ?_⟩
  rw [sub_neg_eq_add, sub_add_cancel]
  exact hk.symm

/-- **The sample at the delay is a strict maximum** of the correlation. -/
theorem isStrictMax_delayed {s : List ℚ} (heven : n % 2 = 0) (h : s.length = n) {i j : ℕ}
    (hi : i < n) (hj : j < n) (hne : s.getD i 0 ≠ s.getD j 0) {d : ℤ} (hlo : -(n : ℤ) / 2 + 1 < d)
    (hhi : d < n / 2) :
    IsStrictMax ((arange (-(n : ℤ) / 2) (n / 2)).map (circularSum s (delayed s d)))
      (n / 2 - d).toNat := by
  have hget : ∀ m : ℕ, m < n →
      ((arange (-(n : ℤ) / 2) (n / 2)).map (circularSum s (delayed s d))).getD m 0 =
        circCorr n (cyc s) (cyc s) (-(n : ℤ) / 2 + m + d) := by
    intro m hm
    rw [List.getD_eq_getElem _ _ (by simp; omega), List.getElem_map, getElem_arange,
      circularSum_delayed (by omega) h]
  obtain ⟨hnext, hprev⟩ := circCorr_neighbour_lt h hi hj hne
  refine ⟨by omega, by simp; omega, ?_, ?_⟩
  · rw [hget _ (by omega), hget _ (by omega),
      show -(n : ℤ) / 2 + ((n / 2 - d).toNat - 1 : ℕ) + d = -1 by omega,
      show -(n : ℤ) / 2 + (n / 2 - d).toNat + d = 0 by omega]
    exact hprev
  · rw [hget _ (by omega), hget _ (by omega),
      show -(n : ℤ) / 2 + ((n / 2 - d).toNat + 1 : ℕ) + d = 1 by omega,
      show -(n : ℤ) / 2 + (n / 2 - d).toNat + d = 0 by omega]
    exact hnext

/-- **The delay is recovered, with its sign.** The search over the
correlation of a signal with its copy delayed by `d`, estimated at `-d`,
selects a sample whose label is `-d`. -/
theorem peakSearch_delayed (n : ℕ) (hn : 4 ≤ n) (heven : n % 2 = 0) (s1 : List ℚ)
    (h1 : s1.length = n) (hne : ∃ i j, i < n ∧ j < n ∧ s1.getD i 0 ≠ s1.getD j 0) (d : ℤ)
    (hlo : -(n : ℤ) / 2 + 1 < d) (hhi : d < n / 2) :
    ∃ axis corr m, correlateCircular s1 (delayed s1 d) = .ok (axis, corr) ∧
      peakSearch (axis.map fun l : ℤ => (l : ℚ)) corr none none none ((-d : ℤ) : ℚ) = .ok m ∧
      m < axis.length ∧ -axis.getD m 0 = d := by
  obtain ⟨i, j, hi, hj, hij⟩ := hne
  refine ⟨_, _, (n / 2 - d).toNat, correlateCircular_even (by omega) heven h1 (by simpa using h1),
    ?_, by simp; omega, ?_⟩
  · rw [show -d = -(n : ℤ) / 2 + (n / 2 - d).toNat by omega]
    exact peakSearch_arange (by omega) (by omega)
      (isStrictMax_delayed heven h1 hi hj hij hlo hhi)
  · rw [getD_arange (by omega)]
    omega

/-- A pulse of four samples, one sample late. -/
theorem peakSearch_delayed_four :
    ∃ axis corr m, correlateCircular [3, 1, 0, 0] (delayed [3, 1, 0, 0] 1) = .ok (axis, corr) ∧
      peakSearch (axis.map fun l : ℤ => (l : ℚ)) corr none none none ((-1 : ℤ) : ℚ) = .ok m ∧
      m < axis.length ∧ -axis.getD m 0 = 1 :=
  peakSearch_delayed 4 le_rfl rfl [3, 1, 0, 0] rfl ⟨0, 1, by decide, by decide, by decide +kernel⟩ 1
    (by decide) (by decide)

end Delay

end WrCalibration
