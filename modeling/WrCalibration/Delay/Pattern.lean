import WrCalibration.Common.Bytes
import WrCalibration.Delay.PeakPosition

/-!
# The pattern generator

`scipy_array_from_pattern` samples a bit pattern as the oscilloscope
would, in the middle of an array of a given length. The two axes are
built apart, the samples by three loops and the times by one `arange`,
and `length_scipyArrayFromPattern` says that they fit.
-/

namespace WrCalibration

namespace Delay

open Python

/-- `int(x)` of a float. -/
def truncate (x : ℚ) : ℤ := if x < 0 then ⌈x⌉ else ⌊x⌋

/-- The level of one sample of the pattern. -/
def patternLevel (pattern : Bytes) (numOfSamples samplesPerBit : ℤ) (valOne valZero : ℚ)
    (sample : ℤ) : Py ℚ := do
  let currentBit := (sample + numOfSamples / 2).fdiv samplesPerBit
  if (← listItem pattern currentBit.toNat) = 48 then pure valZero else pure valOne

/-- `scipy_array_from_pattern`. A pattern that does not fit is warned about
and returns nothing. -/
def scipyArrayFromPattern (pattern : Bytes) (outputLength : ℤ) (bitRate : ℚ := 1.25e9)
    (samplePeriod : ℚ := 5e-11) (valOne : ℚ := 1) (valZero : ℚ := -1) (valPad : ℚ := 0) :
    Py (Option (List ℚ × List ℚ)) := do
  if bitRate * samplePeriod = 0 then throw .zeroDivisionError
  let samplesPerBit := truncate (1 / (bitRate * samplePeriod))
  let numOfSamples := pattern.length * samplesPerBit
  if numOfSamples > outputLength then
    return none
  let halfSamples := numOfSamples / 2
  let halfOutput := outputLength / 2
  let before := (arange (-halfOutput) (-halfSamples)).map fun _ => valPad
  let levels ← (arange (-halfSamples) halfSamples).mapM
    (patternLevel pattern numOfSamples samplesPerBit valOne valZero)
  let after := (arange halfSamples halfOutput).map fun _ => valPad
  let xData ← arangeStep (-halfOutput * samplePeriod) (halfOutput * samplePeriod) samplePeriod
  return some (xData, before ++ levels ++ after)

theorem truncate_nonneg {x : ℚ} (h : 0 ≤ x) : 0 ≤ truncate x := by
  rw [truncate, if_neg (by linarith)]
  exact Int.floor_nonneg.2 h

/-- **The axes fit**: twice half the length asked for, on both. -/
theorem length_scipyArrayFromPattern {pattern : Bytes} {outputLength : ℤ}
    {bitRate samplePeriod valOne valZero valPad : ℚ} {x y : List ℚ} (hrate : 0 < bitRate)
    (hperiod : 0 < samplePeriod)
    (h : scipyArrayFromPattern pattern outputLength bitRate samplePeriod valOne valZero valPad =
      .ok (some (x, y))) :
    (x.length : ℤ) = 2 * (outputLength / 2) ∧ (y.length : ℤ) = 2 * (outputLength / 2) := by
  have hpos : 0 < bitRate * samplePeriod := mul_pos hrate hperiod
  have hbit : 0 ≤ truncate (1 / (bitRate * samplePeriod)) :=
    truncate_nonneg (one_div_nonneg.2 hpos.le)
  have hnum : 0 ≤ (pattern.length : ℤ) * truncate (1 / (bitRate * samplePeriod)) :=
    mul_nonneg (Int.natCast_nonneg _) hbit
  simp only [scipyArrayFromPattern, if_neg hpos.ne', bind, Except.bind, pure, Except.pure] at h
  split at h
  · cases h
  · rename_i hfit
    split at h
    · cases h
    · rename_i levels hlevels
      have hlen := length_of_mapM hlevels
      have hcount : (((outputLength / 2 : ℤ) : ℚ) * samplePeriod -
          -((outputLength / 2 : ℤ) : ℚ) * samplePeriod) / samplePeriod =
          (2 * (outputLength / 2) : ℤ) := by
        rw [div_eq_iff hperiod.ne']
        push_cast
        ring
      rw [arangeStep, if_neg hperiod.ne', hcount, Int.ceil_intCast] at h
      obtain ⟨rfl, rfl⟩ := Prod.mk.inj (Option.some.inj (Except.ok.inj h))
      rw [length_arange] at hlen
      simp only [List.length_map, List.length_range, List.length_append, length_arange, hlen]
      omega

end Delay

end WrCalibration
