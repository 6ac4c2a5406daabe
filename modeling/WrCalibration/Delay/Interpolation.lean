import Mathlib.Tactic.FieldSimp
import WrCalibration.Delay.PeakSearch

/-!
# The interpolation of a peak

`peak_position` evaluates a spline on a finer axis around the maximum it
has selected and takes the first point with the greatest value. On an
equally spaced axis the finer one goes from one sample to another and
meets all samples between (`interpolateAxis_eq`), so that a spline through
the samples loses nothing (`interpolatedPosition_spec`).
-/

namespace WrCalibration

namespace Delay

open Python

variable {axis signal : List ℚ} {h : ℚ} {m : ℕ}

/-- **An equally spaced axis** with the step `h`. -/
structure EquallySpaced (axis : List ℚ) (h : ℚ) : Prop where
  pos : 0 < h
  two_le : 2 ≤ axis.length
  getD_eq : ∀ j < axis.length, axis.getD j 0 = axis.getD 0 0 + j * h

/-- The axis increases. -/
theorem EquallySpaced.getD_mono (hax : EquallySpaced axis h) {j k : ℕ} (hjk : j ≤ k)
    (hk : k < axis.length) : axis.getD j 0 ≤ axis.getD k 0 := by
  have hpos := hax.pos
  rw [hax.getD_eq j (by omega), hax.getD_eq k hk]
  gcongr

/-- The first two positions, which the step of an axis is taken from. -/
theorem EquallySpaced.items (hax : EquallySpaced axis h) :
    item axis 0 = .ok (axis.getD 0 0) ∧ item axis 1 = .ok (axis.getD 1 0) ∧
      axis.getD 1 0 - axis.getD 0 0 = h := by
  have htwo := hax.two_le
  have h0 := item_natCast (show 0 < axis.length by omega)
  have h1 := item_natCast (show 1 < axis.length by omega)
  refine ⟨by exact_mod_cast h0, by exact_mod_cast h1, ?_⟩
  rw [hax.getD_eq 1 (by omega)]
  push_cast
  ring

/-! ## The interpolated axis -/

/-- The points of the axis between which `interpolate_axis` interpolates. -/
def interpolationSpan (n : ℕ) (index width : ℤ) : ℤ × ℤ :=
  let indexMin := index - width / 2
  let indexMax := index + width / 2
  let indexMin := if width % 2 = 0 then indexMin + 1 else indexMin
  (if indexMin < 0 then 0 else indexMin, if indexMax > n - 1 then (n : ℤ) - 1 else indexMax)

theorem interpolateAxis_some (axis : List ℚ) (index width : ℤ) (interpolationFactor : ℚ) :
    interpolateAxis axis (some index) width interpolationFactor = (do
      let axisStep := ((← item axis 1) - (← item axis 0)) / interpolationFactor
      let axisMin ← item axis (interpolationSpan axis.length index width).1
      let axisMax ← item axis (interpolationSpan axis.length index width).2
      arangeStep axisMin (axisMax + axisStep) axisStep) := rfl

/-- The axis from `lo` on, `F` points to a step. -/
def finerAxis (lo h : ℚ) (F steps : ℕ) : List ℚ :=
  (List.range (F * steps + 1)).map fun i : ℕ => lo + i * (h / F)

theorem finerAxis_ne_nil (lo h : ℚ) (F steps : ℕ) : finerAxis lo h F steps ≠ [] := by
  simp [finerAxis]

@[simp] theorem length_finerAxis (lo h : ℚ) (F steps : ℕ) :
    (finerAxis lo h F steps).length = F * steps + 1 := by
  simp [finerAxis]

theorem getElem?_finerAxis {lo h : ℚ} {F steps i : ℕ} (hi : i ≤ F * steps) :
    (finerAxis lo h F steps)[i]? = some (lo + i * (h / F)) := by
  rw [finerAxis, List.getElem?_map, List.getElem?_range (by omega)]
  rfl

theorem getLast?_finerAxis {lo h : ℚ} {F : ℕ} (hF : 0 < F) (steps : ℕ) :
    (finerAxis lo h F steps).getLast? = some (lo + steps * h) := by
  have hFpos : (F : ℚ) ≠ 0 := by exact_mod_cast hF.ne'
  rw [List.getLast?_eq_getElem?, length_finerAxis, Nat.add_sub_cancel,
    getElem?_finerAxis le_rfl, Nat.cast_mul]
  congr 2
  field_simp

/-- **The interpolated axis** runs from the first to the last point of the
span. -/
theorem interpolateAxis_eq (hax : EquallySpaced axis h) {index width : ℤ} {lo hi F : ℕ}
    (hspan : interpolationSpan axis.length index width = ((lo : ℤ), (hi : ℤ))) (hle : lo ≤ hi)
    (hhi : hi < axis.length) (hF : 0 < F) :
    interpolateAxis axis (some index) width F =
      .ok (finerAxis (axis.getD lo 0) h F (hi - lo)) := by
  have hpos := hax.pos
  have hFpos : (0 : ℚ) < F := by exact_mod_cast hF
  obtain ⟨h0, h1, hstep⟩ := hax.items
  have hcount : (axis.getD hi 0 + h / F - axis.getD lo 0) / (h / F) =
      ((F * (hi - lo) + 1 : ℕ) : ℤ) := by
    rw [hax.getD_eq hi hhi, hax.getD_eq lo (by omega), div_eq_iff (by positivity)]
    push_cast [Nat.cast_sub hle]
    field_simp
    ring
  rw [interpolateAxis_some, hspan]
  simp only [h0, h1, item_natCast hhi, item_natCast (hle.trans_lt hhi), bind, Except.bind, hstep]
  rw [arangeStep, if_neg (by positivity), hcount, Int.ceil_intCast, Int.toNat_natCast]
  rfl

/-- All samples from one end to the other are on the finer axis. -/
theorem getD_mem_finerAxis (hax : EquallySpaced axis h) {lo j hi F : ℕ} (hlo : lo ≤ j)
    (hhi : j ≤ hi) (hlt : hi < axis.length) (hF : 0 < F) :
    axis.getD j 0 ∈ finerAxis (axis.getD lo 0) h F (hi - lo) := by
  have hFpos : (F : ℚ) ≠ 0 := by exact_mod_cast hF.ne'
  refine List.mem_map.2 ⟨F * (j - lo), List.mem_range.2 ?_, ?_⟩
  · have hmono : F * (j - lo) ≤ F * (hi - lo) := by gcongr
    omega
  · rw [hax.getD_eq j (by omega), hax.getD_eq lo (by omega)]
    push_cast [Nat.cast_sub hlo]
    field_simp
    ring

/-- The finer axis does not leave the part of the axis it is over. -/
theorem finerAxis_le (hax : EquallySpaced axis h) {lo hi F : ℕ} (hle : lo ≤ hi)
    (hlt : hi < axis.length) (hF : 0 < F) {x : ℚ}
    (hx : x ∈ finerAxis (axis.getD lo 0) h F (hi - lo)) :
    axis.getD lo 0 ≤ x ∧ x ≤ axis.getD hi 0 := by
  have hpos := hax.pos
  have hFpos : (0 : ℚ) < F := by exact_mod_cast hF
  obtain ⟨i, hi', rfl⟩ := List.mem_map.1 hx
  rw [List.mem_range] at hi'
  have hsteps : (i : ℚ) ≤ F * (hi - lo) := by
    have hcast : (i : ℚ) ≤ ((F * (hi - lo) : ℕ) : ℚ) := by exact_mod_cast Nat.lt_succ_iff.1 hi'
    rwa [Nat.cast_mul, Nat.cast_sub hle] at hcast
  have hbound : (i : ℚ) * (h / F) ≤ (hi - lo) * h := by
    calc (i : ℚ) * (h / F) ≤ F * (hi - lo) * (h / F) := by gcongr
      _ = (hi - lo) * h := by field_simp
  constructor
  · have : (0 : ℚ) ≤ i * (h / F) := by positivity
    linarith
  · rw [hax.getD_eq hi hlt, hax.getD_eq lo (by omega)] at *
    linarith

/-- **The span around an index**: half the width to each side, one point less
in front where the width is even, and not beyond the axis. -/
theorem interpolationSpan_eq {n index : ℕ} {width : ℤ} (hindex : index < n) (hwidth : 1 ≤ width) :
    ∃ lo hi : ℕ, interpolationSpan n index width = ((lo : ℤ), (hi : ℤ)) ∧ lo ≤ hi ∧ hi < n ∧
      (lo : ℤ) = max 0 (index - width / 2 + if width % 2 = 0 then 1 else 0) ∧
      (hi : ℤ) = min ((n : ℤ) - 1) (index + width / 2) := by
  obtain ⟨lo, hlo⟩ := Int.eq_ofNat_of_zero_le
    (le_max_left 0 (index - width / 2 + if width % 2 = 0 then 1 else 0))
  obtain ⟨hi, hhi⟩ : ∃ hi : ℕ, min ((n : ℤ) - 1) (index + width / 2) = hi :=
    Int.eq_ofNat_of_zero_le (by omega)
  refine ⟨lo, hi, ?_, ?_, by omega, hlo.symm, hhi.symm⟩
  · rw [← hlo, ← hhi, interpolationSpan]
    simp only [Prod.mk.injEq]
    constructor
    · split <;> split <;> omega
    · split <;> omega
  · split at hlo <;> omega

/-- **The points of the interpolated axis**: from the first to the last point
of the span, the original ones among them, and none beyond the axis. -/
theorem interpolateAxis_points (hax : EquallySpaced axis h) {index F : ℕ} {width : ℤ}
    (hindex : index < axis.length) (hwidth : 1 ≤ width) (hF : 1 ≤ F) :
    ∃ (lo hi : ℕ) (xs : List ℚ),
      (lo : ℤ) = max 0 (index - width / 2 + if width % 2 = 0 then 1 else 0) ∧
      (hi : ℤ) = min ((axis.length : ℤ) - 1) (index + width / 2) ∧
      interpolateAxis axis (some index) width F = .ok xs ∧
      xs.length = F * (hi - lo) + 1 ∧
      (∀ i < xs.length, xs[i]? = some (axis.getD lo 0 + i * (h / F))) ∧
      xs.head? = some (axis.getD lo 0) ∧ xs.getLast? = some (axis.getD hi 0) ∧
      (∀ j, lo ≤ j → j ≤ hi → axis.getD j 0 ∈ xs) ∧
      ∀ x ∈ xs, axis.getD 0 0 ≤ x ∧ x ≤ axis.getD (axis.length - 1) 0 := by
  obtain ⟨lo, hi, hspan, hle, hlt, hlo, hhi⟩ := interpolationSpan_eq hindex hwidth
  have hsteps := length_finerAxis (axis.getD lo 0) h F (hi - lo)
  refine ⟨lo, hi, finerAxis (axis.getD lo 0) h F (hi - lo), hlo, hhi,
    interpolateAxis_eq hax hspan hle hlt hF, hsteps, ?_, ?_, ?_, ?_, ?_⟩
  · intro i hi'
    exact getElem?_finerAxis (by omega)
  · rw [List.head?_eq_getElem?, getElem?_finerAxis (Nat.zero_le _)]
    simp
  · rw [getLast?_finerAxis hF, hax.getD_eq hi hlt, hax.getD_eq lo (by omega), Nat.cast_sub hle]
    congr 1
    ring
  · intro j hj hj'
    exact getD_mem_finerAxis hax hj hj' hlt hF
  · intro x hx
    obtain ⟨hfrom, hto⟩ := finerAxis_le hax hle hlt hF hx
    exact ⟨(hax.getD_mono (Nat.zero_le lo) (by omega)).trans hfrom,
      hto.trans (hax.getD_mono (by omega) (by omega))⟩

/-- An even width at the end of an axis of four points. -/
theorem interpolateAxis_points_four :
    ∃ xs, interpolateAxis [0, 1, 2, 3] (some (3 : ℕ)) 4 (2 : ℕ) = .ok xs ∧ xs.length = 3 ∧
      xs.head? = some 2 ∧ xs.getLast? = some 3 := by
  have hax : EquallySpaced [0, 1, 2, 3] 1 := ⟨by decide, by decide, by decide +kernel⟩
  obtain ⟨lo, hi, xs, hlo, hhi, hrun, hlen, -, hfirst, hlast, -, -⟩ :=
    interpolateAxis_points hax (show 3 < 4 by decide) (show (1 : ℤ) ≤ 4 by decide)
      (show 1 ≤ 2 by decide)
  have hlo' : (lo : ℤ) = 2 := by simpa using hlo
  have hhi' : (hi : ℤ) = 3 := by simpa using hhi
  obtain rfl : lo = 2 := by exact_mod_cast hlo'
  obtain rfl : hi = 3 := by exact_mod_cast hhi'
  exact ⟨xs, hrun, hlen, hfirst, hlast⟩

/-! ## The first point with the greatest value -/

/-- The end of `peak_position`: the first point of an axis where a function
is greatest. -/
def firstPeak (f : ℚ → ℚ) (xs : List ℚ) : Py ℚ :=
  match (xs.map f).max? with
  | none => throw .valueError
  | some top => item xs ((xs.map f).idxOf top)

/-- **The first peak of a function on a list**: no point has a greater value
and the ones before it have smaller ones. -/
def IsFirstPeak (f : ℚ → ℚ) (xs : List ℚ) (p : ℚ) : Prop :=
  ∃ i : ℕ, xs[i]? = some p ∧ (∀ x ∈ xs, f x ≤ f p) ∧ ∀ j < i, ∀ x, xs[j]? = some x → f x < f p

theorem firstPeak_spec {f : ℚ → ℚ} {xs : List ℚ} (hne : xs ≠ []) :
    ∃ p ∈ xs, firstPeak f xs = .ok p ∧ IsFirstPeak f xs p := by
  rcases htop : (xs.map f).max? with _ | top
  · rw [List.max?_eq_none_iff, List.map_eq_nil_iff] at htop
    exact absurd htop hne
  · obtain ⟨hmem, hle⟩ := List.max?_eq_some_iff.1 htop
    have hidx : (xs.map f).idxOf top < xs.length := by
      simpa using List.idxOf_lt_length_of_mem hmem
    have hval : f xs[(xs.map f).idxOf top] = top := by
      have hget := List.getElem_idxOf (List.idxOf_lt_length_of_mem hmem)
      rwa [List.getElem_map] at hget
    refine ⟨xs[(xs.map f).idxOf top], List.getElem_mem hidx, ?_, (xs.map f).idxOf top,
      List.getElem?_eq_getElem hidx, ?_, ?_⟩
    · rw [firstPeak, htop]
      simp only
      rw [item_natCast hidx, List.getD_eq_getElem _ _ hidx]
    · intro x hx
      rw [hval]
      exact hle _ (List.mem_map_of_mem hx)
    · intro j hj x hx
      obtain ⟨hj', rfl⟩ := List.getElem?_eq_some_iff.1 hx
      have hne' : f xs[j] ≠ top := by
        have hbefore := List.not_of_lt_findIdx hj
        simpa using hbefore
      rw [hval]
      exact lt_of_le_of_ne (hle _ (List.mem_map_of_mem (List.getElem_mem hj'))) hne'

/-- There is one first peak at most. -/
theorem IsFirstPeak.unique {f : ℚ → ℚ} {xs : List ℚ} {p q : ℚ} (hp : IsFirstPeak f xs p)
    (hq : IsFirstPeak f xs q) : p = q := by
  obtain ⟨i, hi, hpmax, hpfirst⟩ := hp
  obtain ⟨j, hj, hqmax, hqfirst⟩ := hq
  have hpmem := List.mem_of_getElem? hi
  have hqmem := List.mem_of_getElem? hj
  rcases Nat.lt_trichotomy i j with hlt | heq | hlt
  · exact absurd (hqfirst i hlt p hi) (not_lt.2 (hpmax q hqmem))
  · rw [heq, hj] at hi
    exact (Option.some.inj hi).symm
  · exact absurd (hpfirst j hlt q hj) (not_lt.2 (hqmax p hpmem))

/-! ## The peak that was selected -/

/-- Whatever the indices it starts from, the search ends at a strict
maximum. -/
theorem isStrictMax_of_nearestMaximumIndex {indices : List ℤ}
    (hm : nearestMaximumIndex signal indices = .ok m) : IsStrictMax signal m := by
  rw [nearestMaximumIndex, argrelmax_eq] at hm
  simp only [bind, Except.bind] at hm
  split at hm
  · cases hm
  · rename_i distance hdistance
    split at hm
    · cases hm
    · split at hm
      · rename_i m' hget
        obtain rfl := Except.ok.inj hm
        exact of_decide_eq_true (List.mem_filter.1 (List.mem_of_getElem? hget)).2
      · cases hm

section Search

variable {deltaX signal1X0 signal2X0 : Option ℚ} {xEstimate : ℚ}

theorem isStrictMax_of_peakSearch
    (hm : peakSearch axis signal deltaX signal1X0 signal2X0 xEstimate = .ok m) :
    IsStrictMax signal m := by
  rw [peakSearch] at hm
  rcases halt : alternateAxis axis deltaX signal1X0 signal2X0 with e | ⟨alt, step⟩
  · rw [halt] at hm
    cases hm
  rcases hnear : nearestMaximumIndex signal (estimateIndices alt step xEstimate) with e | m'
  · simp only [halt, hnear, bind, Except.bind] at hm
    cases hm
  rcases hitem : item alt m' with e | x
  · simp only [halt, hnear, hitem, bind, Except.bind] at hm
    cases hm
  simp only [halt, hnear, hitem, bind, Except.bind, pure, Except.pure] at hm
  obtain rfl := Except.ok.inj hm
  exact isStrictMax_of_nearestMaximumIndex hnear

/-- The step of the axis the estimate is compared with. -/
theorem step_of_alternateAxis (hax : EquallySpaced axis h) {alt : List ℚ} {step : ℚ}
    (halt : alternateAxis axis deltaX signal1X0 signal2X0 = .ok (alt, step)) :
    step = deltaX.getD h := by
  cases deltaX with
  | some δ =>
    rw [alternateAxis] at halt
    rcases htimes : axis.mapM (fun x => timeAxis x δ signal1X0 signal2X0) with e | alt'
    · rw [htimes] at halt
      cases halt
    · rw [htimes] at halt
      exact (Prod.mk.inj (Except.ok.inj halt)).2.symm
  | none =>
    obtain ⟨h0, h1, hstep⟩ := hax.items
    simp only [alternateAxis, h0, h1, hstep, bind, Except.bind, pure, Except.pure] at halt
    exact (Prod.mk.inj (Except.ok.inj halt)).2.symm

variable (spline : List ℚ → List ℚ → ℕ → Py (ℚ → ℚ))

/-- The end of `peak_position`: the interpolated position of a maximum, on
the axis as it was given. -/
def interpolatedPosition (axis signal : List ℚ) (maxIndex : ℕ) : Py ℚ := do
  let axisInterpolated ← interpolateAxis axis (some maxIndex)
  let f ← spline axis signal 3
  firstPeak f axisInterpolated

/-- **The two halves of `peak_position`**: the search, and the interpolation
of what it has found. -/
theorem peakPosition_eq (axis signal : List ℚ) (deltaX signal1X0 signal2X0 : Option ℚ)
    (xEstimate : ℚ) :
    peakPosition spline axis signal deltaX signal1X0 signal2X0 xEstimate = (do
      let (_, step) ← alternateAxis axis deltaX signal1X0 signal2X0
      let maxIndex ← peakSearch axis signal deltaX signal1X0 signal2X0 xEstimate
      let p ← interpolatedPosition spline axis signal maxIndex
      pure (-(p * step + signal1X0.getD 0 - signal2X0.getD 0))) := by
  rw [peakPosition]
  refine bind_congr fun alt => bind_congr fun maxIndex => ?_
  rw [interpolatedPosition, bind_assoc]
  refine bind_congr fun xs => ?_
  rw [bind_assoc]
  refine bind_congr fun f => ?_
  rw [firstPeak]
  rcases htop : (xs.map f).max? with _ | top
  · simp only [htop]
    rfl
  · simp only [htop]
    rfl

end Search

theorem interpolatedPosition_of_ok {spline : List ℚ → List ℚ → ℕ → Py (ℚ → ℚ)} {f : ℚ → ℚ}
    {xs : List ℚ} (hxs : interpolateAxis axis (some m) = .ok xs)
    (hspline : spline axis signal 3 = .ok f) :
    interpolatedPosition spline axis signal m = firstPeak f xs := by
  rw [interpolatedPosition, hxs, hspline]
  rfl

/-- The axis around an interior sample: from the sample before to the one
after. -/
theorem interpolateAxis_around (hax : EquallySpaced axis h) (hpos : 0 < m)
    (hlt : m + 1 < axis.length) :
    interpolateAxis axis (some m) = .ok (finerAxis (axis.getD (m - 1) 0) h 100000 2) := by
  have hspan : interpolationSpan axis.length m 3 = (((m - 1 : ℕ) : ℤ), ((m + 1 : ℕ) : ℤ)) := by
    simp only [interpolationSpan, Prod.mk.injEq]
    split
    · omega
    · split
      · omega
      · omega
  have heq := interpolateAxis_eq (F := 100000) hax hspan (by omega) hlt (by decide)
  rw [show m + 1 - (m - 1) = 2 by omega] at heq
  exact_mod_cast heq

/-- **The interpolation of a maximum** ends at the first peak of the spline
between its neighbours. -/
theorem interpolatedPosition_spec (hax : EquallySpaced axis h)
    {spline : List ℚ → List ℚ → ℕ → Py (ℚ → ℚ)} {f : ℚ → ℚ} (hpos : 0 < m)
    (hlt : m + 1 < axis.length) (hspline : spline axis signal 3 = .ok f) :
    ∃ p ∈ finerAxis (axis.getD (m - 1) 0) h 100000 2,
      interpolatedPosition spline axis signal m = .ok p ∧
      IsFirstPeak f (finerAxis (axis.getD (m - 1) 0) h 100000 2) p := by
  obtain ⟨p, hp, hrun, hpeak⟩ := firstPeak_spec (f := f)
    (finerAxis_ne_nil (axis.getD (m - 1) 0) h 100000 2)
  refine ⟨p, hp, ?_, hpeak⟩
  rw [interpolatedPosition_of_ok (interpolateAxis_around hax hpos hlt) hspline, hrun]

/-- **Interpolation never loses the peak**: of a spline through the samples
it takes the first peak between the neighbours of the selected maximum,
where the spline is at least as high as the sample. -/
theorem peakPosition_keeps_peak {spline : List ℚ → List ℚ → ℕ → Py (ℚ → ℚ)} {f : ℚ → ℚ}
    {deltaX signal1X0 signal2X0 : Option ℚ} {xEstimate : ℚ} (hax : EquallySpaced axis h)
    (hlen : signal.length = axis.length)
    (hm : peakSearch axis signal deltaX signal1X0 signal2X0 xEstimate = .ok m)
    (hspline : spline axis signal 3 = .ok f)
    (hthrough : ∀ j < axis.length, f (axis.getD j 0) = signal.getD j 0) :
    ∃ xs p, interpolateAxis axis (some m) = .ok xs ∧
      peakPosition spline axis signal deltaX signal1X0 signal2X0 xEstimate =
        .ok (-(p * deltaX.getD h + signal1X0.getD 0 - signal2X0.getD 0)) ∧
      (axis.getD (m - 1) 0 ≤ p ∧ p ≤ axis.getD (m + 1) 0) ∧ signal.getD m 0 ≤ f p ∧
      IsFirstPeak f xs p := by
  have hmax := isStrictMax_of_peakSearch hm
  have hpos := hmax.1
  have hlt : m + 1 < axis.length := hlen ▸ hmax.2.1
  obtain ⟨p, hp, hrun, hpeak⟩ := interpolatedPosition_spec hax hpos hlt hspline
  refine ⟨_, p, interpolateAxis_around hax hpos hlt, ?_, ?_, ?_, hpeak⟩
  · rw [peakPosition_eq]
    rcases halt : alternateAxis axis deltaX signal1X0 signal2X0 with e | ⟨alt, step⟩
    · rw [peakSearch, halt] at hm
      cases hm
    · simp only [hm, hrun, step_of_alternateAxis hax halt, bind, Except.bind, pure, Except.pure]
  · have hends := finerAxis_le (F := 100000) hax (show m - 1 ≤ m + 1 by omega) hlt (by decide)
      (x := p)
    rw [show m + 1 - (m - 1) = 2 by omega] at hends
    exact hends hp
  · -- the sample itself is one of the points
    obtain ⟨i, -, hle, -⟩ := hpeak
    have hsample := getD_mem_finerAxis (F := 100000) hax (show m - 1 ≤ m by omega)
      (show m ≤ m + 1 by omega) hlt (by decide)
    rw [show m + 1 - (m - 1) = 2 by omega] at hsample
    rw [← hthrough m (by omega)]
    exact hle _ hsample

/-- The polynomial through the samples. -/
def polynomial (axis signal : List ℚ) (x : ℚ) : ℚ :=
  ((List.range axis.length).map fun i =>
    signal.getD i 0 * (((List.range axis.length).filter (· ≠ i)).map fun j =>
      (x - axis.getD j 0) / (axis.getD i 0 - axis.getD j 0)).prod).sum

/-- What the spline of degree `k` is on `k + 1` samples; fewer are refused. -/
def polynomialSpline (axis signal : List ℚ) (k : ℕ) : Py (ℚ → ℚ) :=
  if axis.length ≤ k then throw (.exception "m > k must hold") else pure (polynomial axis signal)

/-- A peak between the samples 1 and 2 of four. -/
theorem peakPosition_keeps_peak_four :
    ∃ xs p, interpolateAxis [0, 1, 2, 3] (some 1) = .ok xs ∧
      peakPosition polynomialSpline [0, 1, 2, 3] [0, 2, 1, 0] none none none 1 =
        .ok (-(p * 1 + 0 - 0)) ∧
      (0 ≤ p ∧ p ≤ 2) ∧ 2 ≤ polynomial [0, 1, 2, 3] [0, 2, 1, 0] p ∧
      IsFirstPeak (polynomial [0, 1, 2, 3] [0, 2, 1, 0]) xs p := by
  have hax : EquallySpaced [0, 1, 2, 3] 1 := ⟨by decide, by decide, by decide +kernel⟩
  have hm : peakSearch [0, 1, 2, 3] [0, 2, 1, 0] none none none 1 = .ok 1 := by decide +kernel
  have hspline : polynomialSpline [0, 1, 2, 3] [0, 2, 1, 0] 3 =
      .ok (polynomial [0, 1, 2, 3] [0, 2, 1, 0]) := rfl
  exact peakPosition_keeps_peak hax rfl hm hspline (by decide +kernel)

end Delay

end WrCalibration
