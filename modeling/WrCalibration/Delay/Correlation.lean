import WrCalibration.Common.Python
import Mathlib.Algebra.BigOperators.Group.Finset.Basic
import Mathlib.Data.Rat.Lemmas

/-!
# The correlation functions of the delay determination library

`correlate_linear` and `correlate_circular`, with the library calls they
make taken as the exact operations they approximate: `fftconvolve` is
the linear convolution and `correlate` the linear cross-correlation.
-/

namespace WrCalibration

namespace Delay

open Python Finset

/-! ## Library calls -/

/-- `scipy.signal.fftconvolve(in1, in2, "full")` -/
def fftconvolve (in1 in2 : List ℚ) : List ℚ :=
  if in1 = [] ∨ in2 = [] then []
  else (List.range (in1.length + in2.length - 1)).map fun k =>
    ∑ i ∈ range (k + 1), in1.getD i 0 * in2.getD (k - i) 0

/-- A signal read at any integer, zero outside its samples. -/
def zeroExt (s : List ℚ) (i : ℤ) : ℚ := if 0 ≤ i then s.getD i.toNat 0 else 0

/-- `scipy.signal.correlate(in1, in2, "full")` -/
def correlate (in1 in2 : List ℚ) : List ℚ :=
  if in1 = [] ∨ in2 = [] then []
  else (List.range (in1.length + in2.length - 1)).map fun k =>
    ∑ i ∈ range in1.length, in1.getD i 0 * zeroExt in2 (i - (k - (in2.length - 1)))

/-! ## The circular correlation -/

/-- `correlate_circular`: the delay axis and the correlation. Only the
FFT branch folds the linear result into one period. -/
def correlateCircular (signal1 signal2 : List ℚ) (timeDomain : Bool := false) :
    Py (List ℤ × List ℚ) := do
  let correlation ←
    if timeDomain then
      pure (correlate signal1 signal2)
    else do
      let correlation := fftconvolve signal1 signal2.reverse
      let n1 : ℤ := signal1.length
      let n2 : ℤ := signal2.length
      let nmax := max n1 n2
      let before ← zeros (nmax - n1)
      let after ← zeros (nmax - n2 + 1)
      broadcast (· + ·) (before ++ sliceFrom correlation (-n1))
        (after ++ sliceTo correlation (n2 - 1))
  let correlation := fftshift correlation
  let delayAxis := arange (-(correlation.length : ℤ) / 2) ((correlation.length : ℤ) / 2)
  pure (delayAxis, correlation)

/-! ## The linear correlation -/

/-- The correlation types of `correlate_linear`. -/
inductive CorrelationType where
  | DC | ASDF | AMDF
  deriving DecidableEq, Repr

/-- The check of `correlation_type` against the list of valid names. -/
def CorrelationType.ofName (name : String) : Py CorrelationType :=
  if name = "DC" then pure .DC
  else if name = "ASDF" then pure .ASDF
  else if name = "AMDF" then pure .AMDF
  else throw (.exception "correlation_type not valid. Choose one of: ['DC', 'ASDF', 'AMDF']")

/-- What one pair of samples adds to the sum. -/
def CorrelationType.kernel : CorrelationType → ℚ → ℚ → ℚ
  | .DC, x, y => x * y
  | .ASDF, x, y => (x - y) ^ 2
  | .AMDF, x, y => x - y

/-- One pass of the loop of `correlate_linear`: the sum for shift `k`
around the center, written at the inverted index. -/
def linearStep (signal1 signal2 : List ℚ) (center shift windowLength : ℤ)
    (correlationType : CorrelationType) (correlation : List ℚ) (k : ℤ) : Py (List ℚ) := do
  let index := k + shift
  let indexInverted := shift - k
  let (signal1LowerIndex, signal1UpperIndex, signal2Boundary) :=
    if shift + center < 0 then (0, windowLength, index + |shift + center|)
    else (shift + center, shift + center + windowLength, index)
  let signal1Cut := slice signal1 signal1LowerIndex signal1UpperIndex
  let shiftedIndices := sliceTo
    (arange signal2Boundary signal2.length ++ arange 0 signal2Boundary) signal2.length
  let signal2Shift := sliceTo (← take signal2 shiftedIndices .raise) windowLength
  let terms ← broadcast correlationType.kernel signal1Cut signal2Shift
  setItem correlation indexInverted terms.sum

/-- The zero padding at the end of `correlate_linear`. -/
def zeroPadding (length : ℤ) (delayAxis : List ℤ) (correlation : List ℚ) :
    Py (List ℤ × List ℚ) := do
  let zeroLength := length / 2 - (correlation.length : ℤ) / 2
  let first := delayAxis.headD 0
  let last := delayAxis.getLastD 0
  let (zerosBefore, axisBefore) ←
    if zeroLength > 1 then
      pure (← zeros (zeroLength - 1), arange (first - zeroLength + 1) first)
    else pure ([], [])
  let (zerosAfter, axisAfter) ←
    if zeroLength > 0 then
      pure (← zeros zeroLength, arange (last + 1) (last + zeroLength + 1))
    else pure ([], [])
  pure (axisBefore ++ delayAxis ++ axisAfter, zerosBefore ++ correlation ++ zerosAfter)

/-- `correlate_linear`: the correlation over a window that is never
wrapped around, for every shift around the center. -/
def correlateLinear (signal1 signal2 : List ℚ) (center : ℤ := 0) (shift : ℤ := 100)
    (length : Option ℤ := none) (correlationType : String := "DC") (zeroPadd : Bool := false) :
    Py (List ℤ × List ℚ) := do
  let correlationType ← CorrelationType.ofName correlationType
  let windowLength := min (signal1.length : ℤ) signal2.length - |center| - 2 * shift
  let length := length.getD windowLength
  if windowLength < length then
    throw (.exception ("Signal truncated too much (due to center and shift) " ++
      "to reach length of correlation window."))
  let windowLength := length
  let correlation ← zeros (2 * shift + 1)
  let delayAxis := arange (-shift) (shift + 1)
  let correlation ← delayAxis.foldlM
    (linearStep signal1 signal2 center shift windowLength correlationType) correlation
  let delayAxis := delayAxis.map (· + center)
  if zeroPadd then zeroPadding length delayAxis correlation
  else pure (delayAxis, correlation)

end Delay

end WrCalibration
