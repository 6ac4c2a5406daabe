import WrCalibration.Delay.Average

/-!
# The record length of a capture

`check_waveforms` returns the number of points of the channel it visits
first, the scripts make it even and cut every channel to it. A channel
with fewer points is not cut but stays as short as it is, so whether the
records fit depends on which channel comes first.
-/

namespace WrCalibration

namespace Delay

open Python Capture

variable {wfData : WaveformData} {first ch : ℤ} {others order : List ℤ} {points : ℤ → ℕ}

/-! ## What the scripts do with a capture -/

/-- `samples = check_waveforms(wf_data)`, made even by `divmod`. -/
def evenSamples (wfData : WaveformData) (order : List ℤ) : Py ℤ := do
  let samples ← checkWaveforms wfData order
  pure (2 * (samples / 2))

/-- Both axes of a channel, cut to the record length. -/
def record (wfData : WaveformData) (samples ch : ℤ) : Py Axes := do
  let (x, y) ← field (← Dict.getItem wfData ch).waveform
  pure (sliceTo x samples, sliceTo y samples)

/-- The record length is the one a measurement is taken with, -/
theorem load_eq (a : Analysis) (file : CaptureFile) (hfile : LeCroy8254.fileToWaveform
    file.content = .ok (some wfData)) :
    a.load file = (wfData, ·) <$> evenSamples wfData (a.keys wfData) := by
  rw [Analysis.load, hfile, evenSamples]
  change (do let samples ← checkWaveforms wfData (a.keys wfData); pure (wfData, 2 * (samples / 2)))
    = _
  rw [map_bind]
  rfl

/-- and the samples of a channel are the second axis of its record. -/
theorem signal_eq (wfData : WaveformData) (samples ch : ℤ) :
    Analysis.signal wfData samples ch = Prod.snd <$> record wfData samples ch := by
  rw [Analysis.signal, record, map_bind]
  refine bind_congr fun c => ?_
  rw [map_bind]
  rfl

/-! ## Captures -/

/-- **A capture** with the given number of points in each channel, and its
channels in the order a script visits them. -/
structure Captured (wfData : WaveformData) (order : List ℤ) (points : ℤ → ℕ) : Prop where
  keys : order.Perm (wfData.map Prod.fst)
  checked : ∀ ch ∈ order, ∃ count xIncrement xDisplayRange,
    checkedEntries wfData ch = .ok (points ch, count, xIncrement, xDisplayRange)
  waveform : ∀ ch ∈ order, ∃ c x y, Dict.getItem wfData ch = .ok c ∧ c.waveform = some (x, y) ∧
    x.length = points ch ∧ y.length = points ch

/-- The channel visited first gives the record length. -/
theorem evenSamples_eq (h : Captured wfData (first :: others) points) :
    evenSamples wfData (first :: others) = .ok (2 * (points first / 2) : ℕ) := by
  obtain ⟨count, xIncrement, xDisplayRange, hfirst⟩ := h.checked first (by simp)
  have hothers : ∀ ch ∈ others, ∃ entry, checkedEntries wfData ch = .ok entry := by
    intro ch hch
    obtain ⟨_, _, _, hch'⟩ := h.checked ch (List.mem_cons_of_mem first hch)
    exact ⟨_, hch'⟩
  obtain ⟨entries, hentries⟩ := exists_mapM hothers
  rw [evenSamples, checkWaveforms, hfirst]
  change (others.mapM _ >>= fun _ => _) >>= _ = _
  rw [hentries]
  change Except.ok _ = Except.ok _
  push_cast
  rfl

/-- A record is as long as asked for, or as long as the channel. -/
theorem record_eq (h : Captured wfData order points) (hch : ch ∈ order) (samples : ℕ) :
    ∃ x y, record wfData samples ch = .ok (x, y) ∧
      x.length = min samples (points ch) ∧ y.length = min samples (points ch) := by
  obtain ⟨c, x, y, hc, hwaveform, hx, hy⟩ := h.waveform ch hch
  refine ⟨sliceTo x samples, sliceTo y samples, ?_, ?_, ?_⟩
  · rw [record, hc]
    change (field c.waveform >>= _) = _
    rw [hwaveform]
    rfl
  · rw [length_sliceTo_natCast, hx]
  · rw [length_sliceTo_natCast, hy]

/-- **Records of one even length**, the one the script has computed. -/
def CommonLength (wfData : WaveformData) (order : List ℤ) : Prop :=
  ∃ samples : ℕ, evenSamples wfData order = .ok samples ∧ Even samples ∧
    ∀ ch ∈ order, ∃ x y, record wfData samples ch = .ok (x, y) ∧
      x.length = samples ∧ y.length = samples

/-- **Every record has the common length exactly if no channel is shorter
than what is used of the one visited first.** -/
theorem commonLength_iff (h : Captured wfData (first :: others) points) :
    CommonLength wfData (first :: others) ↔ ∀ ch ∈ others, 2 * (points first / 2) ≤ points ch := by
  have hsamples := evenSamples_eq h
  constructor
  · rintro ⟨samples, hrun, -, hrecords⟩ ch hch
    rw [hsamples, Except.ok.injEq, Int.natCast_inj] at hrun
    subst hrun
    obtain ⟨x, y, hrecord, hx, -⟩ := hrecords ch (List.mem_cons_of_mem first hch)
    obtain ⟨x', y', hrecord', hx', -⟩ := record_eq h (List.mem_cons_of_mem first hch)
      (2 * (points first / 2))
    obtain ⟨rfl, -⟩ := ok_pair_inj hrecord hrecord'
    omega
  · intro hshort
    refine ⟨_, hsamples, even_two_mul _, ?_⟩
    intro ch hch
    have hle : 2 * (points first / 2) ≤ points ch := by
      rcases List.mem_cons.1 hch with rfl | hother
      · omega
      · exact hshort ch hother
    obtain ⟨x, y, hrecord, hx, hy⟩ := record_eq h hch (2 * (points first / 2))
    exact ⟨x, y, hrecord, hx.trans (min_eq_left hle), hy.trans (min_eq_left hle)⟩

/-- Records of one length can be subtracted from each other. -/
theorem CommonLength.broadcast (h : CommonLength wfData order) :
    ∃ samples : ℕ, evenSamples wfData order = .ok samples ∧
      ∀ ch ∈ order, ∀ ch' ∈ order, ∃ y y' yDiff,
        Analysis.signal wfData samples ch = .ok y ∧
        Analysis.signal wfData samples ch' = .ok y' ∧
        Python.broadcast (· - ·) y y' = .ok yDiff ∧ yDiff.length = samples := by
  obtain ⟨samples, hsamples, -, hrecords⟩ := h
  refine ⟨samples, hsamples, ?_⟩
  intro ch hch ch' hch'
  obtain ⟨x, y, hrecord, -, hy⟩ := hrecords ch hch
  obtain ⟨x', y', hrecord', -, hy'⟩ := hrecords ch' hch'
  refine ⟨y, y', _, by rw [signal_eq, hrecord]; rfl, by rw [signal_eq, hrecord']; rfl,
    broadcast_of_length_eq _ (hy.trans hy'.symm), ?_⟩
  rw [List.length_zipWith, hy, hy', min_self]

/-- A channel of `n` points. -/
def flatChannel (n : ℕ) : Channel where
  byteOrder := ascii "LSBFIRST"
  preamble := { points := some n, count := some 1, xIncrement := some 1, xDisplayRange := some 1 }
  waveform := some (List.replicate n 0, List.replicate n 0)

/-- The channels 1, 3 and 4 with the given numbers of points. -/
def flatCapture (n₁ n₃ n₄ : ℕ) : WaveformData :=
  [(1, flatChannel n₁), (3, flatChannel n₃), (4, flatChannel n₄)]

/-- The number of points of a channel of `flatCapture`. -/
def flatPoints (n₁ n₃ n₄ : ℕ) (ch : ℤ) : ℕ := if ch = 1 then n₁ else if ch = 3 then n₃ else n₄

theorem captured_flatCapture (n₁ n₃ n₄ : ℕ) :
    Captured (flatCapture n₁ n₃ n₄) [1, 3, 4] (flatPoints n₁ n₃ n₄) where
  keys := List.Perm.refl _
  checked := by
    simp only [List.forall_mem_cons]
    exact ⟨⟨1, 1, 1, rfl⟩, ⟨1, 1, 1, rfl⟩, ⟨1, 1, 1, rfl⟩, by simp⟩
  waveform := by
    simp only [List.forall_mem_cons]
    exact ⟨⟨flatChannel n₁, _, _, rfl, rfl, List.length_replicate, List.length_replicate⟩,
      ⟨flatChannel n₃, _, _, rfl, rfl, List.length_replicate, List.length_replicate⟩,
      ⟨flatChannel n₄, _, _, rfl, rfl, List.length_replicate, List.length_replicate⟩, by simp⟩

/-- The shortest channel is visited first. -/
theorem commonLength_iff_shortest : CommonLength (flatCapture 3 5 4) [1, 3, 4] :=
  (commonLength_iff (captured_flatCapture 3 5 4)).2 (by decide)

/-- **A shorter channel is left out of step**: of four, four and three points
the last record is odd, and `y3 - y4` fails. -/
theorem not_commonLength :
    evenSamples (flatCapture 4 4 3) [1, 3, 4] = .ok 4 ∧
      Analysis.signal (flatCapture 4 4 3) 4 4 = .ok [0, 0, 0] ∧
      (do broadcast (· - ·) (← Analysis.signal (flatCapture 4 4 3) 4 3)
            (← Analysis.signal (flatCapture 4 4 3) 4 4)) = .error .valueError ∧
      ¬ CommonLength (flatCapture 4 4 3) [1, 3, 4] := by
  refine ⟨rfl, rfl, rfl, ?_⟩
  rintro ⟨samples, hsamples, -, hrecords⟩
  obtain rfl : samples = 4 := Int.natCast_inj.1 (Except.ok.inj hsamples).symm
  obtain ⟨x, y, hrecord, -, hy⟩ := hrecords 4 (by decide)
  obtain ⟨-, rfl⟩ := ok_pair_inj hrecord
    (show record (flatCapture 4 4 3) (4 : ℕ) 4 = .ok ([0, 0, 0], [0, 0, 0]) from rfl)
  exact absurd hy (by decide)

end Delay

end WrCalibration
