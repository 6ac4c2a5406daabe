import Mathlib.Algebra.Order.Floor.Semifield
import Mathlib.Data.Rat.Floor
import WrCalibration.Delay.Average

/-!
# Where the bits of a pattern stand

`scipyArrayFromPattern_eq` is the generator in closed form: the padding,
the samples of the second loop and the padding again, under a time axis
built apart. Two templates of one even length have one time reference
(`scipyArrayFromPattern_templates`). The samples per bit are truncated,
so a rate that does not divide the bit time is sampled as another one;
`faithful_iff` is when nothing is lost by it.
-/

namespace WrCalibration

namespace Delay

open Python

variable {pattern : Bytes} {s M : ℕ} {bitRate samplePeriod valOne valZero valPad : ℚ}

/-- The level of bit `i` of a pattern. -/
def bitLevel (pattern : Bytes) (valOne valZero : ℚ) (i : ℕ) : ℚ :=
  if pattern.getD i 48 = 48 then valZero else valOne

/-- The second loop of the generator: the samples of the pattern itself. -/
def patternSamples (pattern : Bytes) (samplesPerBit : ℤ) (valOne valZero : ℚ) : Py (List ℚ) :=
  let numOfSamples := pattern.length * samplesPerBit
  let halfSamples := numOfSamples / 2
  (arange (-halfSamples) halfSamples).mapM
    (patternLevel pattern numOfSamples samplesPerBit valOne valZero)

/-! ## The generator in closed form -/

/-- A sample `k` behind the first is one of bit `k / s`. -/
theorem patternLevel_eq {k : ℕ} (hk : k < pattern.length * s) (valOne valZero : ℚ) :
    patternLevel pattern (pattern.length * s : ℕ) s valOne valZero
        (-((pattern.length * s : ℕ) / 2 : ℤ) + k) =
      .ok (bitLevel pattern valOne valZero (k / s)) := by
  have hbit : k / s < pattern.length := Nat.div_lt_of_lt_mul (by rwa [Nat.mul_comm])
  have hcurrent : (-((pattern.length * s : ℕ) / 2 : ℤ) + k + (pattern.length * s : ℕ) / 2).fdiv s =
      (k / s : ℕ) := by
    rw [Int.fdiv_eq_ediv_of_nonneg _ (Int.natCast_nonneg s), Int.natCast_ediv]
    congr 1
    omega
  simp only [patternLevel, hcurrent, Int.toNat_natCast]
  rw [listItem, List.getElem?_eq_getElem hbit, bitLevel, List.getD_eq_getElem _ _ hbit]
  simp only [pure_bind]
  split
  · rfl
  · rfl

theorem patternSamples_eq (pattern : Bytes) (s : ℕ) (valOne valZero : ℚ) :
    patternSamples pattern s valOne valZero =
      .ok ((List.range (2 * (pattern.length * s / 2))).map fun k =>
        bitLevel pattern valOne valZero (k / s)) := by
  have hlen : (((pattern.length * s : ℕ) / 2 : ℤ) - -((pattern.length * s : ℕ) / 2 : ℤ)).toNat =
      2 * (pattern.length * s / 2) := by omega
  rw [patternSamples, ← Nat.cast_mul, arange, hlen, List.mapM_map]
  have hlevel : ∀ k ∈ List.range (2 * (pattern.length * s / 2)),
      (patternLevel pattern (pattern.length * s : ℕ) s valOne valZero ∘
        fun i : ℕ => -((pattern.length * s : ℕ) / 2 : ℤ) + i) k =
      pure (bitLevel pattern valOne valZero (k / s)) := by
    intro k hk
    rw [List.mem_range] at hk
    exact patternLevel_eq (by omega) valOne valZero
  rw [mapM_congr_left hlevel, List.mapM_pure]
  rfl

/-- The time axis of the generator. -/
def timeReference (M : ℕ) (samplePeriod : ℚ) : List ℚ :=
  (List.range (2 * (M / 2))).map fun i : ℕ => ((i : ℚ) - (M / 2 : ℕ)) * samplePeriod

theorem length_timeReference (M : ℕ) (samplePeriod : ℚ) :
    (timeReference M samplePeriod).length = 2 * (M / 2) := by
  rw [timeReference, List.length_map, List.length_range]

theorem arangeStep_eq (M : ℕ) (hperiod : samplePeriod ≠ 0) :
    arangeStep (-((M / 2 : ℤ) : ℚ) * samplePeriod) ((M / 2 : ℤ) * samplePeriod) samplePeriod =
      .ok (timeReference M samplePeriod) := by
  have hcount : ((((M / 2 : ℤ) : ℚ) * samplePeriod - -((M / 2 : ℤ) : ℚ) * samplePeriod) /
      samplePeriod) = (2 * (M / 2) : ℤ) := by
    rw [div_eq_iff hperiod]
    push_cast
    ring
  have hlen : (2 * (M / 2) : ℤ).toNat = 2 * (M / 2) := by omega
  rw [arangeStep, if_neg hperiod, hcount, Int.ceil_intCast, hlen, timeReference]
  refine congrArg Except.ok (List.map_congr_left fun i _ => ?_)
  rw [← Nat.cast_two, ← Int.natCast_ediv, Int.cast_natCast]
  ring

/-- A positive number of samples per bit comes from a rate and a period
that are not zero. -/
theorem mul_ne_zero_of_truncate (hs : truncate (1 / (bitRate * samplePeriod)) = s) (hpos : 1 ≤ s) :
    bitRate * samplePeriod ≠ 0 := by
  intro hzero
  rw [hzero, div_zero, truncate, if_neg (lt_irrefl _), Int.floor_zero] at hs
  omega

/-- **The generator in closed form**, for a pattern that fits. -/
theorem scipyArrayFromPattern_eq (hs : truncate (1 / (bitRate * samplePeriod)) = s) (hpos : 1 ≤ s)
    (hfit : pattern.length * s ≤ M) :
    scipyArrayFromPattern pattern M bitRate samplePeriod valOne valZero valPad =
      .ok (some (timeReference M samplePeriod,
        List.replicate (M / 2 - pattern.length * s / 2) valPad ++
          (List.range (2 * (pattern.length * s / 2))).map (fun k =>
            bitLevel pattern valOne valZero (k / s)) ++
          List.replicate (M / 2 - pattern.length * s / 2) valPad)) := by
  have hne := mul_ne_zero_of_truncate hs hpos
  have hlevels := patternSamples_eq pattern s valOne valZero
  simp only [patternSamples] at hlevels
  have hle : ¬ ((pattern.length : ℤ) * s > M) := by exact_mod_cast not_lt.2 hfit
  have hpad : ∀ lo hi : ℤ, (arange lo hi).map (fun _ => valPad) =
      List.replicate (hi - lo).toNat valPad := by
    intro lo hi
    rw [List.map_const', length_arange]
  have hbefore : (-((pattern.length : ℤ) * s / 2) - -((M : ℤ) / 2)).toNat =
      M / 2 - pattern.length * s / 2 := by
    rw [← Nat.cast_mul]
    omega
  have hafter : ((M : ℤ) / 2 - (pattern.length : ℤ) * s / 2).toNat =
      M / 2 - pattern.length * s / 2 := by
    rw [← Nat.cast_mul]
    omega
  have haxis := arangeStep_eq M (right_ne_zero_of_mul hne)
  simp only [scipyArrayFromPattern, if_neg hne, hs, if_neg hle, hlevels, hpad, hbefore, hafter]
  simp only [haxis]
  rfl

/-! ## Templates of an even length -/

/-- The bits of a pattern in order, each `s` times. -/
def bitSamples (pattern : Bytes) (s : ℕ) (valOne valZero : ℚ) : List ℚ :=
  pattern.flatMap fun bit => List.replicate s (if bit = 48 then valZero else valOne)

theorem length_bitSamples (pattern : Bytes) (s : ℕ) (valOne valZero : ℚ) :
    (bitSamples pattern s valOne valZero).length = pattern.length * s := by
  simp [bitSamples, List.length_flatMap]

/-- Sample `k` of the pattern is one of bit `k / s`. -/
theorem map_bitLevel (hpos : 1 ≤ s) (pattern : Bytes) (valOne valZero : ℚ) :
    ((List.range (pattern.length * s)).map fun k => bitLevel pattern valOne valZero (k / s)) =
      bitSamples pattern s valOne valZero := by
  induction pattern with
  | nil => simp [bitSamples]
  | cons bit pattern ih =>
    have hfirst : ∀ k ∈ List.range s, bitLevel (bit :: pattern) valOne valZero (k / s) =
        if bit = 48 then valZero else valOne := by
      intro k hk
      rw [Nat.div_eq_of_lt (List.mem_range.1 hk), bitLevel, List.getD_cons_zero]
    have hrest : ∀ k, bitLevel (bit :: pattern) valOne valZero ((s + k) / s) =
        bitLevel pattern valOne valZero (k / s) := by
      intro k
      rw [Nat.add_div_left k hpos, bitLevel, List.getD_cons_succ, bitLevel]
    rw [List.length_cons, Nat.succ_mul, Nat.add_comm, List.range_add, List.map_append,
      List.map_map, List.map_congr_left hfirst, List.map_const', List.length_range, bitSamples,
      List.flatMap_cons, ← bitSamples, ← ih]
    exact congrArg _ (List.map_congr_left fun k _ => hrest k)

/-- **A pattern the generator can put in the middle**: the samples per bit
are `s`, and the pattern and the array have even lengths. -/
structure Fits (pattern : Bytes) (bitRate samplePeriod : ℚ) (s M : ℕ) : Prop where
  samplesPerBit : truncate (1 / (bitRate * samplePeriod)) = s
  pos : 1 ≤ s
  even : Even (pattern.length * s)
  even_output : Even M
  le : pattern.length * s ≤ M

/-- **The layout of a template**: padding, every bit of the pattern in order
`s` times, and as much padding; the middle of the pattern is where index
`M / 2` is. -/
structure LaidOut (pattern : Bytes) (s M : ℕ) (valOne valZero valPad : ℚ) (y : List ℚ) : Prop where
  length_eq : y.length = M
  eq_append : y = List.replicate ((M - pattern.length * s) / 2) valPad ++
    bitSamples pattern s valOne valZero ++ List.replicate ((M - pattern.length * s) / 2) valPad
  take_middle : y.take (M / 2) = List.replicate ((M - pattern.length * s) / 2) valPad ++
    (bitSamples pattern s valOne valZero).take (pattern.length * s / 2)
  drop_middle : y.drop (M / 2) = (bitSamples pattern s valOne valZero).drop
    (pattern.length * s / 2) ++ List.replicate ((M - pattern.length * s) / 2) valPad

/-- Padding on both sides that leaves the middle in the middle. -/
theorem laidOut_append (heven : Even (pattern.length * s)) (hM : Even M)
    (hle : pattern.length * s ≤ M) :
    LaidOut pattern s M valOne valZero valPad
      (List.replicate ((M - pattern.length * s) / 2) valPad ++
        bitSamples pattern s valOne valZero ++
        List.replicate ((M - pattern.length * s) / 2) valPad) := by
  have hlen := length_bitSamples pattern s valOne valZero
  obtain ⟨n, hn⟩ := heven
  obtain ⟨m, hm⟩ := hM
  have hpad : (M - pattern.length * s) / 2 = m - n := by omega
  have hmid : M / 2 = (m - n) + pattern.length * s / 2 := by omega
  rw [hpad]
  refine ⟨?_, by rw [hpad], ?_, ?_⟩
  · simp only [List.length_append, List.length_replicate, hlen]
    omega
  · rw [hpad, hmid, List.append_assoc, List.take_append, List.length_replicate,
      List.take_of_length_le (by simp), Nat.add_sub_cancel_left,
      List.take_append_of_le_length (by omega)]
  · rw [hpad, hmid, List.append_assoc, List.drop_append, List.length_replicate,
      List.drop_eq_nil_of_le (by simp), List.nil_append, Nat.add_sub_cancel_left,
      List.drop_append_of_le_length (by omega)]

theorem scipyArrayFromPattern_of_fits (h : Fits pattern bitRate samplePeriod s M)
    (valOne valZero valPad : ℚ) :
    ∃ y, scipyArrayFromPattern pattern M bitRate samplePeriod valOne valZero valPad =
        .ok (some (timeReference M samplePeriod, y)) ∧
      LaidOut pattern s M valOne valZero valPad y := by
  refine ⟨_, ?_, laidOut_append h.even h.even_output h.le⟩
  obtain ⟨n, hn⟩ := h.even
  obtain ⟨m, hm⟩ := h.even_output
  have hle := h.le
  have htwice : 2 * (pattern.length * s / 2) = pattern.length * s := by omega
  have hpad : M / 2 - pattern.length * s / 2 = (M - pattern.length * s) / 2 := by omega
  rw [scipyArrayFromPattern_eq h.samplesPerBit h.pos h.le, htwice, map_bitLevel h.pos, hpad]

/-- **Templates share one time reference**: two patterns in arrays of one
even length stand under the same axis, `M` times around zero, each with
its middle at index `M / 2`. -/
theorem scipyArrayFromPattern_templates {pattern' : Bytes} {s' : ℕ}
    {bitRate' valOne' valZero' valPad' : ℚ} (h : Fits pattern bitRate samplePeriod s M)
    (h' : Fits pattern' bitRate' samplePeriod s' M) :
    ∃ x y y', scipyArrayFromPattern pattern M bitRate samplePeriod valOne valZero valPad =
        .ok (some (x, y)) ∧
      scipyArrayFromPattern pattern' M bitRate' samplePeriod valOne' valZero' valPad' =
        .ok (some (x, y')) ∧
      (x.length = M ∧ ∀ i < M, x[i]? = some (((i : ℚ) - (M : ℚ) / 2) * samplePeriod)) ∧
      LaidOut pattern s M valOne valZero valPad y ∧
      LaidOut pattern' s' M valOne' valZero' valPad' y' := by
  obtain ⟨y, hrun, hy⟩ := scipyArrayFromPattern_of_fits h valOne valZero valPad
  obtain ⟨y', hrun', hy'⟩ := scipyArrayFromPattern_of_fits h' valOne' valZero' valPad'
  obtain ⟨m, hm⟩ := h.even_output
  have hlen : 2 * (M / 2) = M := by omega
  have hhalf : ((M / 2 : ℕ) : ℚ) = (M : ℚ) / 2 := by
    rw [hm, ← Nat.two_mul, Nat.mul_div_cancel_left _ (by decide)]
    push_cast
    ring
  refine ⟨_, y, y', hrun, hrun', ⟨?_, ?_⟩, hy, hy'⟩
  · rw [length_timeReference, hlen]
  · intro i hi
    rw [timeReference, hlen, List.getElem?_map, List.getElem?_range hi, Option.map_some, hhalf]

section SFD

open Analysis

/-- The two symbols of the SFD and an edge in the middle of twenty bits, at
20 Gsps in 1000 samples. -/
theorem scipyArrayFromPattern_templates_sfd :
    ∃ x y y' : List ℚ,
      scipyArrayFromPattern (d21_2 ++ d21_6) (1000 : ℕ) Analysis.bitRate 5e-11 1 0 =
        .ok (some (x, y)) ∧
      scipyArrayFromPattern (List.replicate 10 48 ++ List.replicate 10 49) (1000 : ℕ)
        Analysis.bitRate 5e-11 1 0 = .ok (some (x, y')) ∧
      (x.length = 1000 ∧ ∀ i : ℕ, i < 1000 →
        x[i]? = some (((i : ℚ) - ((1000 : ℕ) : ℚ) / 2) * 5e-11)) ∧
      LaidOut (d21_2 ++ d21_6) 16 1000 1 0 0 y ∧
      LaidOut (List.replicate 10 48 ++ List.replicate 10 49) 16 1000 1 0 0 y' := by
  have hbit : truncate (1 / (Analysis.bitRate * 5e-11)) = (16 : ℕ) := by
    rw [Analysis.bitRate, truncate, show (1 : ℚ) / (1.25e9 * 5e-11) = (16 : ℤ) by norm_num,
      Int.floor_intCast]
    norm_num
  exact scipyArrayFromPattern_templates ⟨hbit, by decide, by decide, by decide, by decide⟩
    ⟨hbit, by decide, by decide, by decide, by decide⟩

/-- **The templates of a run share one time reference**, whatever the sample
period and the width of the edge. -/
theorem templates_eq {bitWidth : ℕ} (hM : Even M)
    (hs : truncate (1 / (Analysis.bitRate * samplePeriod)) = s) (hpos : 1 ≤ s)
    (hsfd : 20 * s ≤ M) (hedge : 2 * bitWidth * s ≤ M) :
    ∃ y y', templates bitWidth samplePeriod M = .ok
        { samplePeriod
          sfd := some (timeReference M samplePeriod, y)
          edge := some (timeReference M samplePeriod, y') } ∧
      LaidOut (d21_2 ++ d21_6) s M 1 0 0 y ∧
      LaidOut (List.replicate bitWidth 48 ++ List.replicate bitWidth 49) s M 1 0 0 y' := by
  have hwidth : (List.replicate bitWidth (48 : UInt8) ++ List.replicate bitWidth 49).length =
      2 * bitWidth := by
    rw [List.length_append, List.length_replicate, List.length_replicate, Nat.two_mul]
  have hsymbols : (d21_2 ++ d21_6).length = 2 * 10 := by decide
  have heven : ∀ b, Even (2 * b * s) := fun b => (even_two_mul b).mul_right s
  have hsfd' : Fits (d21_2 ++ d21_6) Analysis.bitRate samplePeriod s M :=
    ⟨hs, hpos, hsymbols ▸ heven 10, hM, hsfd⟩
  have hedge' : Fits (List.replicate bitWidth 48 ++ List.replicate bitWidth 49) Analysis.bitRate
      samplePeriod s M := ⟨hs, hpos, hwidth ▸ heven bitWidth, hM, by rwa [hwidth]⟩
  obtain ⟨y, hrun, hy⟩ := scipyArrayFromPattern_of_fits hsfd' 1 0 0
  obtain ⟨y', hrun', hy'⟩ := scipyArrayFromPattern_of_fits hedge' 1 0 0
  refine ⟨y, y', ?_, hy, hy'⟩
  simp only [templates, Int.toNat_natCast]
  rw [hrun, hrun']
  rfl

end SFD

/-! ## Any rate -/

/-- **A signal as the oscilloscope samples it**: an array of `M` samples on
both axes, of which the second loop takes as many as `r` to the bit make,
each at the level of the bit its time is in. -/
def Faithful (pattern : Bytes) (M : ℕ) (bitRate samplePeriod valOne valZero valPad : ℚ) : Prop :=
  ∃ x levels k l,
    patternSamples pattern (truncate (1 / (bitRate * samplePeriod))) valOne valZero = .ok levels ∧
    scipyArrayFromPattern pattern M bitRate samplePeriod valOne valZero valPad =
      .ok (some (x, List.replicate k valPad ++ levels ++ List.replicate l valPad)) ∧
    x.length = M ∧ k + levels.length + l = M ∧
    levels.length = ⌊pattern.length * (1 / (bitRate * samplePeriod))⌋₊ ∧
    ∀ j < levels.length, levels[j]? =
      some (bitLevel pattern valOne valZero ⌊j / (1 / (bitRate * samplePeriod))⌋₊)

/-- A pattern whose bits are all sampled at one level. -/
def OneLevel (pattern : Bytes) (valOne valZero : ℚ) : Prop :=
  ∀ i < pattern.length, ∀ j < pattern.length,
    bitLevel pattern valOne valZero i = bitLevel pattern valOne valZero j

/-- What the generator makes of a rate is faithful if the lengths are right
and every sample has the level of its bit. -/
theorem faithful_iff_levels (hs : truncate (1 / (bitRate * samplePeriod)) = s) (hpos : 1 ≤ s)
    (hfit : pattern.length * s ≤ M) :
    Faithful pattern M bitRate samplePeriod valOne valZero valPad ↔
      Even M ∧
      2 * (pattern.length * s / 2) = ⌊pattern.length * (1 / (bitRate * samplePeriod))⌋₊ ∧
      ∀ j < 2 * (pattern.length * s / 2), bitLevel pattern valOne valZero (j / s) =
        bitLevel pattern valOne valZero ⌊j / (1 / (bitRate * samplePeriod))⌋₊ := by
  have hsamples := patternSamples_eq pattern s valOne valZero
  have hrun : scipyArrayFromPattern pattern M bitRate samplePeriod valOne valZero valPad = _ :=
    scipyArrayFromPattern_eq hs hpos hfit
  have hhalf : pattern.length * s / 2 ≤ M / 2 := Nat.div_le_div_right hfit
  have hget : ∀ j < 2 * (pattern.length * s / 2),
      ((List.range (2 * (pattern.length * s / 2))).map fun k =>
        bitLevel pattern valOne valZero (k / s))[j]? =
      some (bitLevel pattern valOne valZero (j / s)) := by
    intro j hj
    rw [List.getElem?_map, List.getElem?_range hj, Option.map_some]
  constructor
  · rintro ⟨x, levels, k, l, hlevels, hout, hx, -, hlen, hlevel⟩
    rw [hs, hsamples] at hlevels
    obtain rfl := Except.ok.inj hlevels
    rw [hrun, Except.ok.injEq, Option.some.injEq, Prod.mk.injEq] at hout
    rw [List.length_map, List.length_range] at hlen hlevel
    rw [← hout.1, length_timeReference] at hx
    refine ⟨⟨M / 2, by omega⟩, hlen, ?_⟩
    intro j hj
    have hj' := hlevel j hj
    rwa [hget j hj, Option.some.injEq] at hj'
  · rintro ⟨⟨m, hm⟩, hlen, hlevel⟩
    refine ⟨_, _, _, _, hs ▸ hsamples, hrun, ?_, ?_, ?_, ?_⟩
    · rw [length_timeReference]
      omega
    · rw [List.length_map, List.length_range]
      omega
    · rw [List.length_map, List.length_range, hlen]
    · intro j hj
      rw [List.length_map, List.length_range] at hj
      rw [hget j hj, hlevel j hj]

section Rate

variable {b : ℕ} {r : ℚ}

/-- The truncated rate fills whole pairs of samples exactly if what it
truncates stays below one sample over the pattern. -/
theorem floor_mul_eq_iff (hr : (s : ℚ) ≤ r) :
    2 * (b * s / 2) = ⌊b * r⌋₊ ↔ Even (b * s) ∧ b * (r - s) < 1 := by
  have hle : ((b * s : ℕ) : ℚ) ≤ b * r := by
    push_cast
    gcongr
  have hfloor : b * s ≤ ⌊b * r⌋₊ := Nat.le_floor hle
  constructor
  · intro h
    have heq : ⌊b * r⌋₊ = b * s := by omega
    have hlt := Nat.lt_floor_add_one (b * r)
    rw [heq] at hlt
    push_cast at hlt
    exact ⟨⟨b * s / 2, by omega⟩, by linarith⟩
  · rintro ⟨⟨n, hn⟩, hlt⟩
    have heq : ⌊b * r⌋₊ = b * s := by
      rw [Nat.floor_eq_iff (hle.trans' (Nat.cast_nonneg _))]
      refine ⟨hle, ?_⟩
      push_cast
      linarith
    omega

/-- Where it stays below one sample, the first sample of every bit but the
first is a sample of the bit before. -/
theorem floor_first_sample (hpos : 1 ≤ s) (hr : (s : ℚ) < r) (hlt : b * (r - s) < 1) {i : ℕ}
    (hi : i + 1 < b) : ⌊(((i + 1) * s : ℕ) : ℚ) / r⌋₊ = i := by
  have hs : (1 : ℚ) ≤ s := by exact_mod_cast hpos
  have hrpos : 0 < r := by linarith
  have hib : ((i : ℚ) + 1) * (r - s) < 1 := by
    refine hlt.trans_le' ?_
    gcongr
    exact_mod_cast hi.le
  rw [Nat.floor_eq_iff (by positivity), le_div_iff₀ hrpos, div_lt_iff₀ hrpos]
  push_cast
  constructor
  · nlinarith
  · nlinarith

/-- Bits that each have the level of the one before have one level. -/
theorem oneLevel_of_succ
    (h : ∀ i, i + 1 < pattern.length →
      bitLevel pattern valOne valZero (i + 1) = bitLevel pattern valOne valZero i) :
    OneLevel pattern valOne valZero := by
  have hfirst : ∀ i < pattern.length,
      bitLevel pattern valOne valZero i = bitLevel pattern valOne valZero 0 := by
    intro i
    induction i with
    | zero => exact fun _ => rfl
    | succ i ih => exact fun hi => (h i hi).trans (ih (by omega))
  intro i hi j hj
  rw [hfirst i hi, hfirst j hj]

end Rate

/-- **The generator samples faithfully** in exactly these cases: the array
and the pattern have even lengths, and `r` samples to the bit are a whole
number, or miss one by less than a sample over a pattern of one level. -/
theorem faithful_iff {r : ℚ} (hrate : 1 / (bitRate * samplePeriod) = r) (hr : 1 ≤ r)
    (hfit : ⌊pattern.length * r⌋₊ ≤ M) :
    Faithful pattern M bitRate samplePeriod valOne valZero valPad ↔
      Even M ∧ Even (pattern.length * ⌊r⌋₊) ∧
        (r = ⌊r⌋₊ ∨ pattern.length * (r - ⌊r⌋₊) < 1 ∧ OneLevel pattern valOne valZero) := by
  have hrpos : 0 < r := by linarith
  have hpos : 1 ≤ ⌊r⌋₊ := Nat.le_floor (by exact_mod_cast hr)
  have hle : (⌊r⌋₊ : ℚ) ≤ r := Nat.floor_le hrpos.le
  have htrunc : truncate (1 / (bitRate * samplePeriod)) = ⌊r⌋₊ := by
    rw [hrate, truncate, if_neg (by linarith), Int.natCast_floor_eq_floor hrpos.le]
  have hmul : pattern.length * ⌊r⌋₊ ≤ M := by
    refine hfit.trans' (Nat.le_floor ?_)
    push_cast
    gcongr
  rw [faithful_iff_levels htrunc hpos hmul, hrate, floor_mul_eq_iff hle]
  refine and_congr_right fun _ => ?_
  rw [and_assoc]
  refine and_congr_right fun heven => ?_
  have htwice : 2 * (pattern.length * ⌊r⌋₊ / 2) = pattern.length * ⌊r⌋₊ := by
    obtain ⟨n, hn⟩ := heven
    omega
  rw [htwice]
  constructor
  · rintro ⟨hlt, hlevel⟩
    rcases hle.eq_or_lt with heq | hne
    · exact .inl heq.symm
    · refine .inr ⟨hlt, oneLevel_of_succ ?_⟩
      -- the first sample of bit `i + 1` is read at the two bits
      intro i hi
      have hfirst := hlevel ((i + 1) * ⌊r⌋₊) (by gcongr)
      rwa [Nat.mul_div_cancel _ hpos, floor_first_sample hpos hne hlt hi] at hfirst
  · rintro (heq | ⟨hlt, hone⟩)
    · refine ⟨by rw [← heq]; simp, ?_⟩
      intro j _
      rw [show (j : ℚ) / r = (j : ℚ) / (⌊r⌋₊ : ℚ) by rw [← heq], Nat.floor_div_eq_div]
    · refine ⟨hlt, ?_⟩
      intro j hj
      have hbit : j / ⌊r⌋₊ < pattern.length := Nat.div_lt_of_lt_mul (by rwa [Nat.mul_comm])
      refine hone _ hbit _ (lt_of_le_of_lt ?_ hbit)
      rw [← Nat.floor_div_eq_div (K := ℚ)]
      gcongr

/-- Two bits at 20 Gsps, sixteen samples each. -/
theorem faithful_iff_whole : Faithful (ascii "01") 40 1.25e9 5e-11 1 (-1) 0 := by
  have hrate : (1 : ℚ) / (1.25e9 * 5e-11) = (16 : ℕ) := by norm_num
  refine (faithful_iff hrate (by norm_num) ?_).2 ?_
  · rw [← Nat.cast_mul, Nat.floor_natCast]
    decide
  · rw [Nat.floor_natCast]
    exact ⟨by decide, by decide, .inl rfl⟩

/-- **The truncation moves the bits**: at 4 Gsps, 3.2 samples to the bit, the
first bit of two ends after three samples and the fourth is taken of the
second. -/
theorem not_faithful :
    1 / (1.25e9 * 2.5e-10 : ℚ) = 3.2 ∧ ⌊((ascii "01").length : ℚ) * 3.2⌋₊ = 6 ∧
      ¬ Faithful (ascii "01") 6 1.25e9 2.5e-10 1 (-1) 0 := by
  have hrate : 1 / (1.25e9 * 2.5e-10 : ℚ) = 3.2 := by norm_num
  have htrunc : truncate (1 / (1.25e9 * 2.5e-10 : ℚ)) = (3 : ℕ) := by
    rw [hrate, truncate, if_neg (by norm_num), Int.floor_eq_iff]
    norm_num
  have hlen : ((ascii "01").length : ℚ) = 2 := rfl
  refine ⟨hrate, ?_, ?_⟩
  · rw [hlen, Nat.floor_eq_iff (by norm_num)]
    norm_num
  · rw [faithful_iff_levels htrunc (by decide) (by decide), hrate]
    rintro ⟨-, -, hlevel⟩
    have hfourth := hlevel 3 (by decide)
    have hbit : ⌊((3 : ℕ) : ℚ) / 3.2⌋₊ = 0 := by
      rw [Nat.floor_eq_zero]
      norm_num
    rw [hbit] at hfourth
    revert hfourth
    decide +kernel

end Delay

end WrCalibration
