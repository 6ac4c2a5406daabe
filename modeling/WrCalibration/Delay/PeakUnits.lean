import WrCalibration.Delay.Interpolation

/-!
# The units of a peak position

`delta_x` scales the axis the estimate is compared with, and is the width
of the bin the estimate selects. Without it the step of the axis takes
its place, in the result as well, and the offsets are read before a
missing one is replaced. `returnsUnits_iff` is when the result is in the
units the arguments ask for.
-/

namespace WrCalibration

namespace Delay

open Python

variable {axis signal : List ℚ} {h xEstimate : ℚ} {m : ℕ}
variable {deltaX signal1X0 signal2X0 : Option ℚ}

/-! ## Which estimates select a maximum -/

/-- The strict maxima of a signal, in order. -/
def maxima (signal : List ℚ) : List ℕ := (List.range signal.length).filter (IsStrictMax signal)

theorem mem_maxima : m ∈ maxima signal ↔ IsStrictMax signal m := by
  rw [maxima, List.mem_filter, List.mem_range, decide_eq_true_iff]
  exact ⟨fun hm => hm.2, fun hm => ⟨(Nat.lt_succ_self m).trans hm.2.1, hm⟩⟩

/-- **Indices from which the search finds a maximum**: a single one, as many
as there are maxima, or several of which the first is nearest to the only
maximum. -/
def Selects (signal : List ℚ) (indices : List ℤ) : Prop :=
  indices.length = 1 ∨ indices.length = (maxima signal).length ∨
    ∃ m i, maxima signal = [m] ∧ indices.head? = some i ∧
      ∀ j ∈ indices, |(m : ℤ) - i| ≤ |(m : ℤ) - j|

/-- A single index selects. -/
theorem exists_nearestMaximumIndex_singleton (hmax : ∃ m, IsStrictMax signal m) (i : ℤ) :
    ∃ m, nearestMaximumIndex signal [i] = .ok m := by
  rcases nearestMaximumIndex_spec signal i with ⟨m, hrun, -⟩ | ⟨-, hnone⟩
  · exact ⟨m, hrun⟩
  · obtain ⟨m, hm⟩ := hmax
    exact absurd hm (hnone m)

/-- As many indices as maxima are compared one by one. -/
theorem exists_nearestMaximumIndex_of_length_eq (hmax : ∃ m, IsStrictMax signal m)
    {indices : List ℤ} (hlen : indices.length = (maxima signal).length) :
    ∃ m, nearestMaximumIndex signal indices = .ok m := by
  obtain ⟨m, hm⟩ := hmax
  have hpos := List.length_pos_of_mem (mem_maxima.2 hm)
  rw [nearestMaximumIndex, argrelmax_eq, ← maxima]
  simp only [bind, Except.bind]
  rw [broadcast_of_length_eq _ hlen.symm]
  simp only
  rcases hleast : (List.zipWith (fun (m : ℕ) (i : ℤ) => |(m : ℤ) - i|) (maxima signal)
    indices).min? with _ | least
  · have hnil := congrArg List.length (List.min?_eq_none_iff.1 hleast)
    rw [List.length_zipWith, hlen, min_self, List.length_nil] at hnil
    omega
  · have hidx := List.idxOf_lt_length_of_mem (List.min?_eq_some_iff.1 hleast).1
    rw [List.length_zipWith, hlen, min_self] at hidx
    simp only
    rw [List.getElem?_eq_getElem hidx]
    exact ⟨_, rfl⟩

/-- The only maximum is found from several indices if the first of them is
the nearest. -/
theorem exists_nearestMaximumIndex_of_single {indices : List ℤ} (hsingle : maxima signal = [m])
    (hlen : indices.length ≠ 1) :
    (∃ m', nearestMaximumIndex signal indices = .ok m') ↔
      ∃ i, indices.head? = some i ∧ ∀ j ∈ indices, |(m : ℤ) - i| ≤ |(m : ℤ) - j| := by
  have hbroadcast : broadcast (fun (m : ℕ) (i : ℤ) => |(m : ℤ) - i|) [m] indices =
      .ok (indices.map fun i => |(m : ℤ) - i|) := by
    rw [broadcast, if_neg fun heq : [m].length = indices.length => hlen heq.symm]
    rfl
  rw [nearestMaximumIndex, argrelmax_eq, ← maxima, hsingle]
  simp only [bind, Except.bind, hbroadcast]
  rcases indices with _ | ⟨i, rest⟩
  · simp
  rcases hleast : ((i :: rest).map fun i => |(m : ℤ) - i|).min? with _ | least
  · rw [List.min?_eq_none_iff] at hleast
    cases hleast
  obtain ⟨hmem, hle⟩ := List.min?_eq_some_iff.1 hleast
  have hfirst : (∀ j ∈ i :: rest, |(m : ℤ) - i| ≤ |(m : ℤ) - j|) ↔ |(m : ℤ) - i| = least := by
    constructor
    · intro hnear
      obtain ⟨j, hj, rfl⟩ := List.mem_map.1 hmem
      exact le_antisymm (hnear j hj) (hle _ (by simp))
    · rintro rfl j hj
      exact hle _ (List.mem_map_of_mem hj)
  simp only [List.head?_cons, Option.some.injEq, exists_eq_left', hfirst]
  rw [List.map_cons, List.idxOf_cons]
  by_cases heq : |(m : ℤ) - i| = least
  · refine iff_of_true ⟨m, ?_⟩ heq
    rw [heq, beq_self_eq_true]
    rfl
  · refine iff_of_false ?_ heq
    rintro ⟨m', hrun⟩
    rw [beq_false_of_ne heq] at hrun
    cases hrun

/-- **When the search finds a maximum.** -/
theorem exists_nearestMaximumIndex_iff (hmax : ∃ m, IsStrictMax signal m) {indices : List ℤ} :
    (∃ m, nearestMaximumIndex signal indices = .ok m) ↔ Selects signal indices := by
  rcases Decidable.em (indices.length = 1) with hone | hone
  · obtain ⟨i, rfl⟩ := List.length_eq_one_iff.1 hone
    exact iff_of_true (exists_nearestMaximumIndex_singleton hmax i) (.inl hone)
  rcases Decidable.em (indices.length = (maxima signal).length) with hlen | hlen
  · exact iff_of_true (exists_nearestMaximumIndex_of_length_eq hmax hlen) (.inr (.inl hlen))
  rcases Decidable.em ((maxima signal).length = 1) with hsingle | hsingle
  · obtain ⟨m, hm⟩ := List.length_eq_one_iff.1 hsingle
    rw [exists_nearestMaximumIndex_of_single hm hone, Selects, or_iff_right hone,
      or_iff_right hlen]
    constructor
    · rintro ⟨i, hi, hnear⟩
      exact ⟨m, i, hm, hi, hnear⟩
    · rintro ⟨m', i, hm', hi, hnear⟩
      rw [hm] at hm'
      obtain rfl : m = m' := by simpa using hm'
      exact ⟨i, hi, hnear⟩
  · refine iff_of_false ?_ ?_
    · rintro ⟨m, hrun⟩
      rw [nearestMaximumIndex, argrelmax_eq, ← maxima] at hrun
      simp only [bind, Except.bind] at hrun
      rw [broadcast_of_length_ne _ (Ne.symm hlen) hsingle hone] at hrun
      cases hrun
    · rintro (h1 | h2 | ⟨m, i, hm, -⟩)
      · exact hone h1
      · exact hlen h2
      · exact hsingle (by rw [hm, List.length_singleton])

/-! ## The axis in the resulting units -/

/-- A position of the axis in the units of the result, for an axis that is
recalculated and for one that is not. -/
def inUnits (deltaX signal1X0 signal2X0 : Option ℚ) (x : ℚ) : ℚ :=
  match deltaX with
  | some δ => x * δ + signal1X0.getD 0 - signal2X0.getD 0
  | none => x

/-- The indices of the samples within half a bin of the estimate. -/
def binIndices (axis : List ℚ) (h : ℚ) (deltaX signal1X0 signal2X0 : Option ℚ)
    (xEstimate : ℚ) : List ℤ :=
  estimateIndices (axis.map (inUnits deltaX signal1X0 signal2X0)) (deltaX.getD h) xEstimate

/-- An axis is recalculated with both offsets only. -/
def OffsetsGiven (deltaX signal1X0 signal2X0 : Option ℚ) : Prop :=
  deltaX.isSome → signal1X0.isSome ∧ signal2X0.isSome

theorem alternateAxis_eq (hax : EquallySpaced axis h)
    (hgiven : OffsetsGiven deltaX signal1X0 signal2X0) :
    alternateAxis axis deltaX signal1X0 signal2X0 =
      .ok (axis.map (inUnits deltaX signal1X0 signal2X0), deltaX.getD h) := by
  cases deltaX with
  | some δ =>
    obtain ⟨h1, h2⟩ := hgiven rfl
    obtain ⟨x01, rfl⟩ := Option.isSome_iff_exists.1 h1
    obtain ⟨x02, rfl⟩ := Option.isSome_iff_exists.1 h2
    have htimes : axis.mapM (fun x => timeAxis x δ (some x01) (some x02)) =
        .ok (axis.map (inUnits (some δ) (some x01) (some x02))) := List.mapM_pure
    rw [alternateAxis, htimes]
    rfl
  | none =>
    obtain ⟨h0, h1, hstep⟩ := hax.items
    have hid : axis.map (inUnits none signal1X0 signal2X0) = axis := List.map_id axis
    simp only [alternateAxis, h0, h1, hstep, hid, bind, Except.bind, pure, Except.pure,
      Option.getD_none]

/-- A missing offset is not a number where it is used first. -/
theorem alternateAxis_error (hax : EquallySpaced axis h)
    (hgiven : ¬ OffsetsGiven deltaX signal1X0 signal2X0) :
    alternateAxis axis deltaX signal1X0 signal2X0 = .error .typeError := by
  rw [OffsetsGiven, Classical.not_imp] at hgiven
  obtain ⟨hsome, hmissing⟩ := hgiven
  obtain ⟨δ, rfl⟩ := Option.isSome_iff_exists.1 hsome
  obtain ⟨x, xs, rfl⟩ := List.exists_cons_of_length_pos
    (show 0 < axis.length by have := hax.two_le; omega)
  have htime : timeAxis x δ signal1X0 signal2X0 = .error .typeError := by
    cases signal1X0 with
    | none => rfl
    | some x01 =>
      cases signal2X0 with
      | none => rfl
      | some x02 => exact absurd ⟨rfl, rfl⟩ hmissing
  rw [alternateAxis, List.mapM_cons, htime]
  rfl

/-- The search is that of the nearest maximum, from the bin. -/
theorem peakSearch_eq_iff (hax : EquallySpaced axis h) (hlen : signal.length = axis.length)
    (hgiven : OffsetsGiven deltaX signal1X0 signal2X0) :
    peakSearch axis signal deltaX signal1X0 signal2X0 xEstimate = .ok m ↔
      nearestMaximumIndex signal (binIndices axis h deltaX signal1X0 signal2X0 xEstimate) =
        .ok m := by
  rw [peakSearch, alternateAxis_eq hax hgiven, binIndices]
  simp only [bind, Except.bind]
  generalize estimateIndices (axis.map (inUnits deltaX signal1X0 signal2X0)) (deltaX.getD h)
    xEstimate = indices
  rcases hnear : nearestMaximumIndex signal indices with e | m'
  · simp
  · have hlt : m' < (axis.map (inUnits deltaX signal1X0 signal2X0)).length := by
      have hmax := (isStrictMax_of_nearestMaximumIndex hnear).2.1
      rw [List.length_map, ← hlen]
      omega
    simp only [item_natCast hlt]
    rfl

/-! ## The units of the result -/

/-- **A result in the right units**: the position the interpolation has found
on the axis, times `delta_x` or one, and moved by the offsets. -/
def ReturnsUnits (spline : List ℚ → List ℚ → ℕ → Py (ℚ → ℚ)) (axis signal : List ℚ)
    (deltaX signal1X0 signal2X0 : Option ℚ) (xEstimate : ℚ) : Prop :=
  ∃ m a, peakSearch axis signal deltaX signal1X0 signal2X0 xEstimate = .ok m ∧
    interpolatedPosition spline axis signal m = .ok a ∧
    peakPosition spline axis signal deltaX signal1X0 signal2X0 xEstimate =
      .ok (-(a * deltaX.getD 1 + signal1X0.getD 0 - signal2X0.getD 0))

/-- **A spline of the library**: over increasing positions it needs more
samples than its degree, which is five at most. -/
def IsSpline (spline : List ℚ → List ℚ → ℕ → Py (ℚ → ℚ)) : Prop :=
  ∀ (axis signal : List ℚ) (k : ℕ), axis.Pairwise (· < ·) → signal.length = axis.length →
    1 ≤ k → k ≤ 5 → ((∃ f, spline axis signal k = .ok f) ↔ k < axis.length)

/-- The spline around the maximum nearest to the estimate is first highest
at the origin of the axis. -/
def PeakAtOrigin (spline : List ℚ → List ℚ → ℕ → Py (ℚ → ℚ)) (axis signal : List ℚ) (h : ℚ)
    (index : ℤ) : Prop :=
  ∃ f m, spline axis signal 3 = .ok f ∧ IsNearestMax signal index m ∧
    IsFirstPeak f (finerAxis (axis.getD (m - 1) 0) h 100000 2) 0

/-- **When the result is in the right units**: there are four samples, the
offsets are given with `delta_x`, the bin selects a maximum, and an axis
that is not recalculated has unit step, or the peak at its origin. -/
structure UnitsAgree (spline : List ℚ → List ℚ → ℕ → Py (ℚ → ℚ)) (axis signal : List ℚ) (h : ℚ)
    (deltaX signal1X0 signal2X0 : Option ℚ) (xEstimate : ℚ) : Prop where
  samples : 4 ≤ axis.length
  offsets : OffsetsGiven deltaX signal1X0 signal2X0
  selects : Selects signal (binIndices axis h deltaX signal1X0 signal2X0 xEstimate)
  units : deltaX = none → h = 1 ∨
    ∃ index ∈ binIndices axis h deltaX signal1X0 signal2X0 xEstimate,
      PeakAtOrigin spline axis signal h index

theorem EquallySpaced.pairwise_lt (hax : EquallySpaced axis h) : axis.Pairwise (· < ·) := by
  have hpos := hax.pos
  rw [List.pairwise_iff_getElem]
  intro i j hi hj hij
  rw [← List.getD_eq_getElem _ 0 hi, ← List.getD_eq_getElem _ 0 hj, hax.getD_eq i hi,
    hax.getD_eq j hj]
  gcongr

/-- An index of the bin is a sample less than half a bin away. -/
theorem mem_estimateIndices {xs : List ℚ} {w : ℚ} {i : ℤ} :
    i ∈ estimateIndices xs w xEstimate ↔ ∃ j < xs.length, (j : ℤ) = i ∧
      xs.getD j 0 - xEstimate < w / 2 ∧ -w / 2 ≤ xs.getD j 0 - xEstimate := by
  rw [estimateIndices]
  simp only [List.mem_map, List.mem_filter, List.mem_range, Bool.and_eq_true, decide_eq_true_eq]
  constructor
  · rintro ⟨j, ⟨hj, hbin⟩, hji⟩
    exact ⟨j, hj, hji, hbin⟩
  · rintro ⟨j, hj, hji, hbin⟩
    exact ⟨j, ⟨hj, hbin⟩, hji⟩

theorem nodup_estimateIndices (xs : List ℚ) (w xEstimate : ℚ) :
    (estimateIndices xs w xEstimate).Nodup :=
  (List.nodup_range.filter _).map Nat.cast_injective

/-- **A bin as wide as the step** holds one sample at most. -/
theorem eq_of_mem_estimateIndices (hax : EquallySpaced axis h) {i j : ℤ}
    (hi : i ∈ estimateIndices axis h xEstimate) (hj : j ∈ estimateIndices axis h xEstimate) :
    i = j := by
  have hpos := hax.pos
  obtain ⟨a, ha, rfl, ha1, ha2⟩ := mem_estimateIndices.1 hi
  obtain ⟨b, hb, rfl, hb1, hb2⟩ := mem_estimateIndices.1 hj
  rw [hax.getD_eq a ha] at ha1 ha2
  rw [hax.getD_eq b hb] at hb1 hb2
  have hab : ((a : ℚ) - b) * h < 1 * h := by linarith
  have hba : ((b : ℚ) - a) * h < 1 * h := by linarith
  have hab' : ((a : ℤ) - b : ℤ) < 1 := by exact_mod_cast lt_of_mul_lt_mul_right hab hpos.le
  have hba' : ((b : ℤ) - a : ℤ) < 1 := by exact_mod_cast lt_of_mul_lt_mul_right hba hpos.le
  omega

theorem estimateIndices_eq_singleton (hax : EquallySpaced axis h) {index : ℤ}
    (hi : index ∈ estimateIndices axis h xEstimate) :
    estimateIndices axis h xEstimate = [index] := by
  have hsame := List.eq_replicate_of_mem fun j hj => eq_of_mem_estimateIndices hax hj hi
  have hle : (estimateIndices axis h xEstimate).length ≤ 1 := by
    have hnodup := nodup_estimateIndices axis h xEstimate
    rw [hsame] at hnodup
    exact List.nodup_replicate.1 hnodup
  have hone : (estimateIndices axis h xEstimate).length = 1 :=
    le_antisymm hle (List.length_pos_of_mem hi)
  rw [hsame, hone]
  rfl

/-- Where the axis is not recalculated, a bin that selects is one sample. -/
theorem binIndices_eq_singleton (hax : EquallySpaced axis h) {index : ℤ}
    (hi : index ∈ binIndices axis h none signal1X0 signal2X0 xEstimate) :
    binIndices axis h none signal1X0 signal2X0 xEstimate = [index] := by
  have hid : axis.map (inUnits none signal1X0 signal2X0) = axis := List.map_id axis
  rw [binIndices, Option.getD_none, hid] at hi ⊢
  exact estimateIndices_eq_singleton hax hi

/-- A bin that selects is not empty. -/
theorem Selects.exists_mem (hmax : ∃ m, IsStrictMax signal m) {indices : List ℤ}
    (hsel : Selects signal indices) : ∃ index, index ∈ indices := by
  obtain ⟨m, hm⟩ := hmax
  have hpos := List.length_pos_of_mem (mem_maxima.2 hm)
  rcases hsel with h1 | h2 | ⟨_, i, -, hi, -⟩
  · exact List.length_pos_iff_exists_mem.1 (by omega)
  · exact List.length_pos_iff_exists_mem.1 (by omega)
  · exact ⟨i, List.mem_of_mem_head? hi⟩

section Result

variable {spline : List ℚ → List ℚ → ℕ → Py (ℚ → ℚ)}

/-- What `peak_position` returns: the position in units of `delta_x`, or of
the step of the axis. -/
theorem peakPosition_of_ok (hax : EquallySpaced axis h)
    (hgiven : OffsetsGiven deltaX signal1X0 signal2X0) {p : ℚ}
    (hm : peakSearch axis signal deltaX signal1X0 signal2X0 xEstimate = .ok m)
    (hrun : interpolatedPosition spline axis signal m = .ok p) :
    peakPosition spline axis signal deltaX signal1X0 signal2X0 xEstimate =
      .ok (-(p * deltaX.getD h + signal1X0.getD 0 - signal2X0.getD 0)) := by
  rw [peakPosition_eq, alternateAxis_eq hax hgiven]
  simp only [hm, hrun, bind, Except.bind, pure, Except.pure]

/-- An interpolation that returns had a spline, and is its first peak. -/
theorem isFirstPeak_of_interpolatedPosition (hax : EquallySpaced axis h) {a : ℚ} (hpos : 0 < m)
    (hlt : m + 1 < axis.length) (hrun : interpolatedPosition spline axis signal m = .ok a) :
    ∃ f, spline axis signal 3 = .ok f ∧
      IsFirstPeak f (finerAxis (axis.getD (m - 1) 0) h 100000 2) a := by
  rcases hspline : spline axis signal 3 with e | f
  · rw [interpolatedPosition, interpolateAxis_around hax hpos hlt, hspline] at hrun
    cases hrun
  · obtain ⟨p, -, hrun', hpeak⟩ := interpolatedPosition_spec hax hpos hlt hspline
    obtain rfl := Except.ok.inj (hrun.symm.trans hrun')
    exact ⟨f, rfl, hpeak⟩

theorem unitsAgree_of_returnsUnits (hax : EquallySpaced axis h)
    (hlen : signal.length = axis.length) (hspline : IsSpline spline)
    (hreturns : ReturnsUnits spline axis signal deltaX signal1X0 signal2X0 xEstimate) :
    UnitsAgree spline axis signal h deltaX signal1X0 signal2X0 xEstimate := by
  obtain ⟨m, a, hm, ha, hpeak⟩ := hreturns
  have hgiven : OffsetsGiven deltaX signal1X0 signal2X0 := by
    by_contra hmissing
    rw [peakSearch, alternateAxis_error hax hmissing] at hm
    cases hm
  have hstrict := isStrictMax_of_peakSearch hm
  have hnear := (peakSearch_eq_iff hax hlen hgiven).1 hm
  have hselects := (exists_nearestMaximumIndex_iff ⟨m, hstrict⟩).1 ⟨m, hnear⟩
  obtain ⟨f, hf, hfirst⟩ :=
    isFirstPeak_of_interpolatedPosition hax hstrict.1 (hlen ▸ hstrict.2.1) ha
  have hdegree := hspline axis signal 3 hax.pairwise_lt hlen (by decide) (by decide)
  refine ⟨hdegree.1 ⟨f, hf⟩, hgiven, hselects, ?_⟩
  rintro rfl
  -- the step is taken for `delta_x`, which shows unless the position is zero
  rw [peakPosition_of_ok hax hgiven hm ha, Except.ok.injEq, Option.getD_none,
    Option.getD_none] at hpeak
  rcases eq_or_ne h 1 with hone | hne
  · exact .inl hone
  have hzero : a = 0 := by
    have hmul : a * (h - 1) = 0 := by linarith
    exact (mul_eq_zero.1 hmul).resolve_right (sub_ne_zero.2 hne)
  obtain ⟨index, hindex⟩ := hselects.exists_mem ⟨m, hstrict⟩
  rw [binIndices_eq_singleton hax hindex] at hnear
  rw [hzero] at hfirst
  exact .inr ⟨index, hindex, f, m, hf, ((nearestMaximumIndex_iff signal index).1 m).1 hnear,
    hfirst⟩

theorem returnsUnits_of_unitsAgree (hax : EquallySpaced axis h)
    (hlen : signal.length = axis.length) (hmax : ∃ m, IsStrictMax signal m)
    (hspline : IsSpline spline)
    (hagree : UnitsAgree spline axis signal h deltaX signal1X0 signal2X0 xEstimate) :
    ReturnsUnits spline axis signal deltaX signal1X0 signal2X0 xEstimate := by
  obtain ⟨hsamples, hgiven, hselects, hunits⟩ := hagree
  obtain ⟨m, hnear⟩ := (exists_nearestMaximumIndex_iff hmax).2 hselects
  have hm := (peakSearch_eq_iff hax hlen hgiven).2 hnear
  have hstrict := isStrictMax_of_peakSearch hm
  have hdegree := hspline axis signal 3 hax.pairwise_lt hlen (by decide) (by decide)
  obtain ⟨f, hf⟩ := hdegree.2 hsamples
  obtain ⟨p, -, hrun, hfirst⟩ :=
    interpolatedPosition_spec hax hstrict.1 (hlen ▸ hstrict.2.1) hf
  refine ⟨m, p, hm, hrun, ?_⟩
  rw [peakPosition_of_ok hax hgiven hm hrun]
  cases deltaX with
  | some δ => rfl
  | none =>
    rcases hunits rfl with rfl | ⟨index, hindex, f', m', hf', hnear', hpeak⟩
    · rfl
    · rw [binIndices_eq_singleton hax hindex] at hnear
      obtain rfl := (((nearestMaximumIndex_iff signal index).1 m).1 hnear).unique hnear'
      obtain rfl := Except.ok.inj (hf.symm.trans hf')
      rw [hfirst.unique hpeak, zero_mul, zero_mul]

/-- **The units of `peak_position`** are the right ones exactly where they
agree. -/
theorem returnsUnits_iff (hax : EquallySpaced axis h) (hlen : signal.length = axis.length)
    (hmax : ∃ m, IsStrictMax signal m) (hspline : IsSpline spline) :
    ReturnsUnits spline axis signal deltaX signal1X0 signal2X0 xEstimate ↔
      UnitsAgree spline axis signal h deltaX signal1X0 signal2X0 xEstimate :=
  ⟨unitsAgree_of_returnsUnits hax hlen hspline, returnsUnits_of_unitsAgree hax hlen hmax hspline⟩

end Result

theorem isSpline_polynomialSpline : IsSpline polynomialSpline := by
  intro axis signal k _ _ _ _
  rw [polynomialSpline]
  split
  · rename_i hle
    refine iff_of_false ?_ (not_lt.2 hle)
    rintro ⟨f, hf⟩
    cases hf
  · rename_i hlt
    exact iff_of_true ⟨_, rfl⟩ (not_le.1 hlt)

theorem equallySpaced_four : EquallySpaced [0, 1, 2, 3] 1 :=
  ⟨by decide, by decide, by decide +kernel⟩

/-- Two nanoseconds to the sample, and half a nanosecond between the
signals. -/
theorem returnsUnits_iff_four :
    ReturnsUnits polynomialSpline [0, 1, 2, 3] [0, 2, 1, 0] (some 2) (some 0.5) (some 0) 2.5 := by
  have hlen : ([0, 2, 1, 0] : List ℚ).length = ([0, 1, 2, 3] : List ℚ).length := rfl
  refine (returnsUnits_iff equallySpaced_four hlen ⟨1, by decide +kernel⟩
    isSpline_polynomialSpline).2 ?_
  refine ⟨by decide, fun _ => ⟨rfl, rfl⟩, .inl (by decide +kernel), ?_⟩
  intro hnone
  cases hnone

/-- **Offsets that are left out are no zeros**: with `delta_x` given, the
search fails before it begins. -/
theorem not_returnsUnits :
    peakPosition polynomialSpline [0, 1, 2, 3] [0, 2, 1, 0] (some 1) none none 1 =
        .error .typeError ∧
      ¬ ReturnsUnits polynomialSpline [0, 1, 2, 3] [0, 2, 1, 0] (some 1) none none 1 := by
  refine ⟨rfl, ?_⟩
  have hlen : ([0, 2, 1, 0] : List ℚ).length = ([0, 1, 2, 3] : List ℚ).length := rfl
  intro hreturns
  have hagree := unitsAgree_of_returnsUnits equallySpaced_four hlen isSpline_polynomialSpline
    hreturns
  exact absurd (hagree.offsets rfl).1 (by decide)

/-! ## Where it is met -/

/-- **An estimate on the axis** is within half a step of one sample. -/
theorem exists_mem_estimateIndices (hax : EquallySpaced axis h) (hlo : axis.getD 0 0 ≤ xEstimate)
    (hhi : xEstimate ≤ axis.getD (axis.length - 1) 0) :
    ∃ index, index ∈ estimateIndices axis h xEstimate := by
  have hpos := hax.pos
  have htwo := hax.two_le
  set t := (xEstimate - axis.getD 0 0) / h with ht
  have hest : xEstimate = axis.getD 0 0 + t * h := by
    rw [ht, div_mul_cancel₀ _ hpos.ne']
    ring
  have ht0 : 0 ≤ t := div_nonneg (by linarith) hpos.le
  have htn : t ≤ (axis.length - 1 : ℕ) := by
    rw [ht, div_le_iff₀ hpos]
    rw [hax.getD_eq _ (by omega)] at hhi
    linarith
  -- the sample that follows the estimate by more than minus half a step
  have hj0 : 0 ≤ ⌈t - 1 / 2⌉ := by
    rw [Int.le_ceil_iff]
    push_cast
    linarith
  have hjn : ⌈t - 1 / 2⌉ ≤ (axis.length - 1 : ℕ) := by
    rw [Int.ceil_le]
    push_cast
    linarith
  have hlt : ⌈t - 1 / 2⌉.toNat < axis.length := by omega
  have hcast : ((⌈t - 1 / 2⌉.toNat : ℕ) : ℚ) = (⌈t - 1 / 2⌉ : ℚ) := by
    exact_mod_cast congrArg (Int.cast (R := ℚ)) (Int.toNat_of_nonneg hj0)
  refine ⟨(⌈t - 1 / 2⌉.toNat : ℕ), mem_estimateIndices.2 ⟨_, hlt, rfl, ?_⟩⟩
  rw [hax.getD_eq _ hlt, hest, hcast]
  have hceil := Int.ceil_lt_add_one (t - 1 / 2)
  have hle := Int.le_ceil (t - 1 / 2)
  constructor
  · nlinarith
  · nlinarith

/-- An axis with unit step is equally spaced in the resulting units. -/
theorem equallySpaced_inUnits (hax : EquallySpaced axis 1) (hpos : ∀ δ ∈ deltaX, 0 < δ) :
    EquallySpaced (axis.map (inUnits deltaX signal1X0 signal2X0)) (deltaX.getD 1) := by
  have htwo := hax.two_le
  cases deltaX with
  | none =>
    have hid : axis.map (inUnits none signal1X0 signal2X0) = axis := List.map_id axis
    rw [hid]
    exact hax
  | some δ =>
    have hmap : ∀ j < axis.length, (axis.map (inUnits (some δ) signal1X0 signal2X0)).getD j 0 =
        axis.getD j 0 * δ + signal1X0.getD 0 - signal2X0.getD 0 := by
      intro j hj
      rw [List.getD_eq_getElem _ _ (by simpa using hj), List.getElem_map,
        List.getD_eq_getElem _ _ hj]
      rfl
    refine ⟨hpos δ rfl, by simpa using htwo, ?_⟩
    intro j hj
    rw [List.length_map] at hj
    rw [hmap j hj, hmap 0 (by omega), hax.getD_eq j hj, Option.getD_some]
    ring

/-- **On an axis with unit step** the units are right for every estimate
within its range. -/
theorem returnsUnits_of_unit_step {spline : List ℚ → List ℚ → ℕ → Py (ℚ → ℚ)}
    (hax : EquallySpaced axis 1) (hlen : signal.length = axis.length)
    (hmax : ∃ m, IsStrictMax signal m) (hspline : IsSpline spline) (hsamples : 4 ≤ axis.length)
    (hpos : ∀ δ ∈ deltaX, 0 < δ) (hgiven : OffsetsGiven deltaX signal1X0 signal2X0)
    (hlo : (axis.map (inUnits deltaX signal1X0 signal2X0)).getD 0 0 ≤ xEstimate)
    (hhi : xEstimate ≤ (axis.map (inUnits deltaX signal1X0 signal2X0)).getD (axis.length - 1) 0) :
    ReturnsUnits spline axis signal deltaX signal1X0 signal2X0 xEstimate := by
  have hunits : EquallySpaced (axis.map (inUnits deltaX signal1X0 signal2X0)) (deltaX.getD 1) :=
    equallySpaced_inUnits hax hpos
  obtain ⟨index, hindex⟩ := exists_mem_estimateIndices hunits hlo (by rwa [List.length_map])
  refine returnsUnits_of_unitsAgree hax hlen hmax hspline
    ⟨hsamples, hgiven, .inl ?_, fun _ => .inl rfl⟩
  rw [binIndices, estimateIndices_eq_singleton hunits hindex]
  rfl

end Delay

end WrCalibration
