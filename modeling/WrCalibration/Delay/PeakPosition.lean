import WrCalibration.Common.Python
import Mathlib.Algebra.Order.Floor.Ring
import Mathlib.Algebra.Order.Ring.Rat
import Mathlib.Data.Rat.Floor

/-!
# The peak search of the delay determination library

`argrelextrema` and its helpers, `nearest_maximum_index`, the axis
functions, and `peak_position`. The spline is the one thing the search
takes from outside: it is a parameter, and nothing before the
interpolation reads it.
-/

namespace WrCalibration

namespace Delay

open Python

/-! ## Relative extrema -/

/-- The loop of `_boolrelextrema` over the remaining shifts, left as soon
as no extremum remains. -/
def boolrelextremaLoop (data : List ℚ) (comparator : ℚ → ℚ → Bool) (mode : TakeMode)
    (main : List ℚ) : List ℕ → List Bool → Py (List Bool)
  | [], results => pure results
  | shift :: shifts, results => do
    let locs := arange 0 data.length
    let plus ← take data (locs.map (· + (shift : ℤ))) mode
    let minus ← take data (locs.map (· - (shift : ℤ))) mode
    let results := List.zipWith (· && ·) results (List.zipWith comparator main plus)
    let results := List.zipWith (· && ·) results (List.zipWith comparator main minus)
    if results.any id then boolrelextremaLoop data comparator mode main shifts results
    else pure results

/-- `_boolrelextrema`: where `data` compares with all its neighbours up to
distance `order`. -/
def boolrelextrema (data : List ℚ) (comparator : ℚ → ℚ → Bool) (order : ℕ := 1)
    (mode : TakeMode := .clip) : Py (List Bool) := do
  if order < 1 then throw .valueError
  let main ← take data (arange 0 data.length) mode
  boolrelextremaLoop data comparator mode main (List.range' 1 order)
    (List.replicate data.length true)

/-- The positions of a boolean array that hold. -/
def whereTrue (results : List Bool) : List ℕ :=
  (List.range results.length).filter fun m => results.getD m false

/-- `argrelextrema`: the indices of the extrema. -/
def argrelextrema (data : List ℚ) (comparator : ℚ → ℚ → Bool) (order : ℕ := 1)
    (mode : TakeMode := .clip) : Py (List ℕ) := do
  let results ← boolrelextrema data comparator order mode
  if results.any id then pure (whereTrue results) else pure []

/-- `argrelmax` -/
def argrelmax (data : List ℚ) (order : ℕ := 1) (mode : TakeMode := .clip) : Py (List ℕ) :=
  argrelextrema data (fun x y => decide (y < x)) order mode

/-- `nearest_maximum_index`: the first of the maxima with the least
distance to `index`, an array the maxima are compared with elementwise. -/
def nearestMaximumIndex (signal : List ℚ) (index : List ℤ) : Py ℕ := do
  let maxima ← argrelmax signal
  let distance ← broadcast (fun (m : ℕ) i => |(m : ℤ) - i|) maxima index
  match distance.min? with
  | none => throw .valueError
  | some least =>
    match maxima[distance.idxOf least]? with
    | some m => pure m
    | none => throw .indexError

/-! ## Axes -/

/-- `time_axis`, for a single value. An offset that is not given is not a
number. -/
def timeAxis (x deltaT : ℚ) : Option ℚ → Option ℚ → Py ℚ
  | some signal1T0, some signal2T0 => pure (x * deltaT + signal1T0 - signal2T0)
  | _, _ => throw .typeError

/-- `arange(lo, hi, step)` in exact arithmetic. -/
def arangeStep (lo hi step : ℚ) : Py (List ℚ) :=
  if step = 0 then throw .valueError
  else pure ((List.range ⌈(hi - lo) / step⌉.toNat).map fun i : ℕ => lo + i * step)

/-- `xs[i]` for a position of an array. -/
def item (xs : List ℚ) (i : ℤ) : Py ℚ :=
  match xs[(if i < 0 then i + xs.length else i).toNat]? with
  | some x => if i < -xs.length then throw .indexError else pure x
  | none => throw .indexError

theorem item_natCast {xs : List ℚ} {j : ℕ} (hj : j < xs.length) :
    item xs j = .ok (xs.getD j 0) := by
  rw [item, if_neg (by omega), Int.toNat_natCast, List.getElem?_eq_getElem hj,
    List.getD_eq_getElem _ _ hj]
  simp only
  rw [if_neg (by omega)]
  rfl

/-- `interpolate_axis`: `interpolation_factor` steps between two points of
the axis, over `width` points around `index`. -/
def interpolateAxis (axis : List ℚ) (index : Option ℤ := none) (width : ℤ := 3)
    (interpolationFactor : ℚ := 100000) : Py (List ℚ) := do
  let (indexMin, indexMax) :=
    match index with
    | none => (0, (axis.length : ℤ) - 1)
    | some index =>
      let indexMin := index - width / 2
      let indexMax := index + width / 2
      let indexMin := if width % 2 = 0 then indexMin + 1 else indexMin
      (if indexMin < 0 then 0 else indexMin,
        if indexMax > axis.length - 1 then (axis.length : ℤ) - 1 else indexMax)
  let axisStep := ((← item axis 1) - (← item axis 0)) / interpolationFactor
  let axisMin ← item axis indexMin
  let axisMax ← item axis indexMax
  arangeStep axisMin (axisMax + axisStep) axisStep

/-! ## The peak position -/

/-- The indices of the axis within half a step of the estimate. -/
def estimateIndices (alternateAxis : List ℚ) (deltaX xEstimate : ℚ) : List ℤ :=
  ((List.range alternateAxis.length).filter fun m =>
    decide (alternateAxis.getD m 0 - xEstimate < deltaX / 2) &&
      decide (-deltaX / 2 ≤ alternateAxis.getD m 0 - xEstimate)).map Nat.cast

/-- The axis `peak_position` compares the estimate with, and its step. The
offsets are still the arguments as given. -/
def alternateAxis (axis : List ℚ) (deltaX signal1X0 signal2X0 : Option ℚ) : Py (List ℚ × ℚ) :=
  match deltaX with
  | some deltaX => do
    pure (← axis.mapM fun x => timeAxis x deltaX signal1X0 signal2X0, deltaX)
  | none => do
    pure (axis, (← item axis 1) - (← item axis 0))

/-- The search of `peak_position`: the index of the maximum nearest to the
estimate, before interpolation. -/
def peakSearch (axis signal : List ℚ) (deltaX signal1X0 signal2X0 : Option ℚ := none)
    (xEstimate : ℚ := 0) : Py ℕ := do
  let (alternateAxis, deltaX) ← alternateAxis axis deltaX signal1X0 signal2X0
  let maxIndex ← nearestMaximumIndex signal (estimateIndices alternateAxis deltaX xEstimate)
  -- the time of the maximum is printed, and read for that
  let _ ← item alternateAxis maxIndex
  pure maxIndex

/-- `peak_position`. `spline axis signal k` is the interpolation function
of the signal. -/
def peakPosition (spline : List ℚ → List ℚ → ℕ → Py (ℚ → ℚ)) (axis signal : List ℚ)
    (deltaX signal1X0 signal2X0 : Option ℚ := none) (xEstimate : ℚ := 0) : Py ℚ := do
  let (_, step) ← alternateAxis axis deltaX signal1X0 signal2X0
  let maxIndex ← peakSearch axis signal deltaX signal1X0 signal2X0 xEstimate
  let axisInterpolated ← interpolateAxis axis (some maxIndex)
  let signalInterpolated := axisInterpolated.map (← spline axis signal 3)
  match signalInterpolated.max? with
  | none => throw .valueError
  | some top =>
    let indexInterpolated ← item axisInterpolated (signalInterpolated.idxOf top)
    let peak ← timeAxis indexInterpolated step (some (signal1X0.getD 0)) (some (signal2X0.getD 0))
    pure (-peak)

end Delay

end WrCalibration
