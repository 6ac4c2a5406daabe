import WrCalibration.Capture.LeCroy8254
import WrCalibration.Delay.Pattern

/-!
# Averaging over captures

`average_edge_to_edge` and `average_edge_to_sfd` are one loop over the
captures of a run. What the first capture provides, the sample period
and the templates, is kept for the whole run, so a run is the list of
its measurements as taken with the values of its first file
(`foldlM_averageBody`), and as taken on their own when those values are
the same for every file.
-/

namespace WrCalibration

namespace Delay

open Python Capture

/-- A file the oscilloscope library has written. -/
structure CaptureFile where
  filename : Bytes
  content : Bytes

/-- What the scripts return. -/
structure Averages where
  meas : List ℚ
  samples : ℤ
  samplePeriod : ℚ
  firstFilename : Bytes
  filename : Bytes
  deriving DecidableEq

/-- **The functions the loops call**, and the order in which `keys()`
lists a dictionary. -/
structure Analysis where
  keys : WaveformData → List ℤ
  correlateCircular : List ℚ → List ℚ → Py (List ℤ × List ℚ)
  peakPosition : List ℤ → List ℚ → ℚ → Py ℚ

namespace Analysis

variable {κ : Type} (a : Analysis)

/-! ## One capture -/

/-- The capture and the even number of samples used of it. -/
def load (file : CaptureFile) : Py (WaveformData × ℤ) := do
  match ← LeCroy8254.fileToWaveform file.content with
  | none => throw .attributeError
  | some wfData =>
    let samples ← checkWaveforms wfData (a.keys wfData)
    pure (wfData, 2 * (samples / 2))

/-- The sample period, from the preamble of the first enabled channel. -/
def firstPeriod (wfData : WaveformData) : Py ℚ := do
  let firstChannel ← listItem (a.keys wfData) 0
  field (← Dict.getItem wfData firstChannel).preamble.xIncrement

/-- `wf_data[ch]["waveform"][1][:samples]`; the other axis is cut too, and
only plotted. -/
def signal (wfData : WaveformData) (samples : ℤ) (ch : ℤ) : Py (List ℚ) := do
  let (_, y) ← field (← Dict.getItem wfData ch).waveform
  pure (sliceTo y samples)

/-! ## The loop -/

/-- What the loop carries. -/
structure AverageState (κ : Type) where
  lst : List ℚ := []
  cached : Option (κ × Bytes) := none
  last : Option (ℤ × Bytes) := none

/-- A delay that is warned about and skipped. -/
def outside (estimate tolerance d : ℚ) : Bool :=
  decide (d < estimate - tolerance / 2) || decide (d > estimate + tolerance / 2)

/-- The block under `once`: what the first capture provides and its name
are bound, later captures leave them alone. -/
def ifOnce (prepare : WaveformData → ℤ → Py κ) (st : AverageState κ) (file : CaptureFile)
    (wfData : WaveformData) (samples : ℤ) : Py (κ × Bytes) :=
  match st.cached with
  | some c => pure c
  | none => do pure (← prepare wfData samples, file.filename)

/-- **One pass.** -/
def averageBody (prepare : WaveformData → ℤ → Py κ) (measure : κ → WaveformData → ℤ → Py ℚ)
    (estimate tolerance : ℚ) (st : AverageState κ) (file : CaptureFile) : Py (AverageState κ) := do
  let (wfData, samples) ← a.load file
  let (cache, firstFilename) ← ifOnce prepare st file wfData samples
  let d ← measure cache wfData samples
  let lst := if outside estimate tolerance d then st.lst else st.lst ++ [d]
  pure { lst, cached := some (cache, firstFilename), last := some (samples, file.filename) }

/-- The values returned after the loop. -/
def returned (samplePeriod : κ → ℚ) (st : AverageState κ) : Py Averages := do
  let (samples, filename) ← bound st.last
  let (cache, firstFilename) ← bound st.cached
  pure { meas := st.lst, samples, samplePeriod := samplePeriod cache, firstFilename, filename }

/-! ## A run and its measurements -/

section Run

variable (prepare : WaveformData → ℤ → Py κ) (measure : κ → WaveformData → ℤ → Py ℚ)
  (estimate tolerance : ℚ) (samplePeriod : κ → ℚ)

/-- The loop and its return. -/
def average (files : List CaptureFile) : Py Averages := do
  let st ← files.foldlM (a.averageBody prepare measure estimate tolerance) {}
  returned samplePeriod st

/-- What a file provides if it is the first one. -/
def cacheOf (file : CaptureFile) : Py κ := do
  let (wfData, samples) ← a.load file
  prepare wfData samples

/-- **The measurement of one file** with the values of another: one delay
or, outside the tolerance, none. -/
def accepted (cache : κ) (file : CaptureFile) : Py (List ℚ) := do
  let (wfData, samples) ← a.load file
  let d ← measure cache wfData samples
  pure (if outside estimate tolerance d then [] else [d])

variable {prepare measure estimate tolerance samplePeriod}

/-- A pass adds the measurement of its file. -/
theorem averageBody_eq {st : AverageState κ} {file : CaptureFile} {wfData : WaveformData}
    {samples : ℤ} {c : κ} {first : Bytes} (hload : a.load file = .ok (wfData, samples))
    (hcache : ifOnce prepare st file wfData samples = .ok (c, first)) :
    a.averageBody prepare measure estimate tolerance st file =
      (a.accepted measure estimate tolerance c file).map fun ds =>
        ⟨st.lst ++ ds, some (c, first), some (samples, file.filename)⟩ := by
  simp only [averageBody, accepted, hload, hcache, bind, Except.bind, pure, Except.pure]
  rcases measure c wfData samples with e | d
  · rfl
  · by_cases h : outside estimate tolerance d = true
    · simp [h, Except.map]
    · simp [h, Except.map]

/-- **After the first file**, a run is the measurements of its files. -/
theorem meas_foldlM_averageBody {c : κ} {first : Bytes} {files : List CaptureFile} {lst : List ℚ}
    {last : ℤ × Bytes} :
    Averages.meas <$> (files.foldlM (a.averageBody prepare measure estimate tolerance)
        ⟨lst, some (c, first), some last⟩ >>= returned samplePeriod) =
      (fun ls : List (List ℚ) => lst ++ ls.flatten) <$>
        files.mapM (a.accepted measure estimate tolerance c) := by
  induction files generalizing lst last with
  | nil => simp [returned, bound, Functor.map, Except.map, pure, Except.pure, bind, Except.bind]
  | cons file files ih =>
    rw [List.foldlM_cons, List.mapM_cons, bind_assoc]
    rcases hload : a.load file with e | ⟨wfData, samples⟩
    · simp only [averageBody, accepted, hload, bind, Except.bind]
      rfl
    · rw [averageBody_eq a hload rfl]
      rcases a.accepted measure estimate tolerance c file with e | ds
      · rfl
      · change Averages.meas <$> (files.foldlM _ ⟨lst ++ ds, _, _⟩ >>= returned samplePeriod) = _
        rw [ih]
        rcases files.mapM (a.accepted measure estimate tolerance c) with e | ls
        · rfl
        · simp [Functor.map, Except.map, bind, Except.bind, pure, Except.pure]

/-- **A run measures every file with the values of the first.** -/
theorem meas_average_cons {file : CaptureFile} {files : List CaptureFile} :
    Averages.meas <$> a.average prepare measure estimate tolerance samplePeriod (file :: files) =
      a.cacheOf prepare file >>= fun c =>
        List.flatten <$> (file :: files).mapM (a.accepted measure estimate tolerance c) := by
  rw [average, List.foldlM_cons, bind_assoc]
  cases hload : a.load file with
  | error e =>
    simp only [averageBody, cacheOf, hload, bind, Except.bind]
    rfl
  | ok loaded =>
    obtain ⟨wfData, samples⟩ := loaded
    cases hprep : prepare wfData samples with
    | error e =>
      simp only [averageBody, ifOnce, cacheOf, hload, hprep, bind, Except.bind]
      rfl
    | ok c =>
      have hcacheOf : a.cacheOf prepare file = .ok c := by
        simp only [cacheOf, hload, hprep, bind, Except.bind]
      have hcache : ifOnce prepare {} file wfData samples = .ok (c, file.filename) := by
        simp only [ifOnce, hprep, bind, Except.bind, pure, Except.pure]
      rw [averageBody_eq a hload hcache, hcacheOf]
      change _ = List.flatten <$> (file :: files).mapM (a.accepted measure estimate tolerance c)
      rw [List.mapM_cons]
      cases a.accepted measure estimate tolerance c file with
      | error e => rfl
      | ok ds =>
        change Averages.meas <$> (files.foldlM _ ⟨[] ++ ds, _, _⟩ >>= returned samplePeriod) = _
        rw [meas_foldlM_averageBody]
        cases files.mapM (a.accepted measure estimate tolerance c) <;> rfl

/-- Files that provide the same values are measured as on their own. -/
theorem meas_average_of_cacheOf {file : CaptureFile} {files : List CaptureFile}
    (h : ∀ f ∈ files, a.cacheOf prepare f = a.cacheOf prepare file) :
    Averages.meas <$> a.average prepare measure estimate tolerance samplePeriod (file :: files) =
      List.flatten <$> (file :: files).mapM fun f =>
        Averages.meas <$> a.average prepare measure estimate tolerance samplePeriod [f] := by
  have hsingle : ∀ f, a.cacheOf prepare f = a.cacheOf prepare file →
      Averages.meas <$> a.average prepare measure estimate tolerance samplePeriod [f] =
        a.cacheOf prepare file >>= fun c => a.accepted measure estimate tolerance c f := by
    intro f hf
    rw [meas_average_cons, hf]
    cases a.cacheOf prepare file with
    | error e => rfl
    | ok c =>
      change List.flatten <$> [f].mapM _ = a.accepted measure estimate tolerance c f
      rw [List.mapM_cons, List.mapM_nil]
      cases a.accepted measure estimate tolerance c f with
      | error e => rfl
      | ok ds => simp [Functor.map, Except.map, bind, Except.bind, pure, Except.pure]
  rw [meas_average_cons]
  cases hc : a.cacheOf prepare file with
  | error e => rw [List.mapM_cons, hsingle file rfl, hc]; rfl
  | ok c =>
    refine congrArg (List.flatten <$> ·) (mapM_congr_left fun f hf => ?_)
    rcases List.mem_cons.1 hf with rfl | hf
    · rw [hsingle f rfl, hc]; rfl
    · rw [hsingle f (h f hf), hc]; rfl

end Run

/-! ## Edge to edge -/

/-- The body of `average_edge_to_edge` after the cache. -/
def measureEdgeToEdge (expectMax : ℚ) (samplePeriod : ℚ) (wfData : WaveformData) (samples : ℤ) :
    Py ℚ := do
  let y1 ← signal wfData samples 1
  let y3 ← signal wfData samples 3
  let (cx, cy) ← a.correlateCircular y1 y3
  pure (samplePeriod * (← a.peakPosition cx cy expectMax))

/-- `average_edge_to_edge`, on the files its captures leave: `num_meas` is
their number. -/
def averageEdgeToEdge (expectMax estimate : ℚ) (files : List CaptureFile)
    (tolerance : ℚ := 1e-9) : Py Averages :=
  a.average (fun wfData _ => a.firstPeriod wfData) (a.measureEdgeToEdge expectMax) estimate
    tolerance id files

/-! ## Edge to SFD -/

/-- One gigabit Ethernet: a bit takes 800 ps. -/
def bitRate : ℚ := 1.25e9

/-- 8B10B symbols. -/
def d21_2 : Bytes := ascii "1010100101"

@[inherit_doc d21_2] def d21_6 : Bytes := ascii "1010100110"

/-- What `average_edge_to_sfd` keeps of the first capture. -/
structure Templates where
  samplePeriod : ℚ
  sfd : Option (List ℚ × List ℚ)
  edge : Option (List ℚ × List ℚ)

/-- The templates for a record length and a sample period. -/
def templates (bitWidth : ℤ) (samplePeriod : ℚ) (samples : ℤ) : Py Templates := do
  let sfd ← scipyArrayFromPattern (d21_2 ++ d21_6) samples bitRate samplePeriod 1 0
  let edgePattern := List.replicate bitWidth.toNat 48 ++ List.replicate bitWidth.toNat 49
  let edge ← scipyArrayFromPattern edgePattern samples bitRate samplePeriod 1 0
  pure { samplePeriod, sfd, edge }

/-- `template[1]`; a pattern that did not fit is `None`. -/
def template : Option (List ℚ × List ℚ) → Py (List ℚ)
  | some (_, y) => pure y
  | none => throw .typeError

/-- The body of `average_edge_to_sfd` after the cache. -/
def measureEdgeToSfd (expectMaxEdge expectMaxSfd : ℚ) (c : Templates) (wfData : WaveformData)
    (samples : ℤ) : Py ℚ := do
  let y1 ← signal wfData samples 1
  let y3 ← signal wfData samples 3
  let y4 ← signal wfData samples 4
  let yDiff ← broadcast (· - ·) y3 y4
  let (cSfdX, cSfdY) ← a.correlateCircular yDiff (← template c.sfd)
  let (cEdgeX, cEdgeY) ← a.correlateCircular y1 (← template c.edge)
  let dEdge := c.samplePeriod * (← a.peakPosition cEdgeX cEdgeY expectMaxEdge)
  let dSfd := c.samplePeriod * (← a.peakPosition cSfdX cSfdY expectMaxSfd)
  pure (dEdge - dSfd)

/-- `average_edge_to_sfd`, on the files its captures leave. -/
def averageEdgeToSfd (bitWidth : ℤ) (expectMaxEdge expectMaxSfd estimate : ℚ)
    (files : List CaptureFile) (tolerance : ℚ := 1e-9) : Py Averages :=
  a.average (fun wfData samples => do templates bitWidth (← a.firstPeriod wfData) samples)
    (a.measureEdgeToSfd expectMaxEdge expectMaxSfd) estimate tolerance Templates.samplePeriod files

/-! ## Measurements of a run -/

/-- The sample period a file gives to the run it begins. -/
def samplePeriodOf (file : CaptureFile) : Py ℚ :=
  a.cacheOf (fun wfData _ => a.firstPeriod wfData) file

/-- The even record length of a file. -/
def samplesOf (file : CaptureFile) : Py ℤ := do
  let (_, samples) ← a.load file
  pure samples

/-- The templates a file gives to the run it begins. -/
def templatesOf (bitWidth : ℤ) (file : CaptureFile) : Py Templates :=
  a.cacheOf (fun wfData samples => do templates bitWidth (← a.firstPeriod wfData) samples) file

/-- The templates depend on the sample period and the record length only. -/
theorem templatesOf_congr {bitWidth : ℤ} {f g : CaptureFile}
    (hperiod : a.samplePeriodOf f = a.samplePeriodOf g) (hsamples : a.samplesOf f = a.samplesOf g) :
    a.templatesOf bitWidth f = a.templatesOf bitWidth g := by
  have hboth : ∀ file, a.templatesOf bitWidth file =
      a.samplePeriodOf file >>= fun p => a.samplesOf file >>= fun n => templates bitWidth p n := by
    intro file
    simp only [templatesOf, samplePeriodOf, samplesOf, cacheOf]
    cases a.load file with
    | error e => rfl
    | ok loaded => rfl
  rw [hboth, hboth, hperiod, hsamples]

/-- **The measurements of one averaging run**: each file is measured with
the sample period of the first (for the SFD, with its templates), so a
run is the concatenation of its single measurements if that period (and
the record length) is the same in every file. -/
theorem meas_average_independent (a : Analysis) (bitWidth : ℤ)
    (expectMax expectMaxEdge expectMaxSfd estimate tolerance : ℚ) (file : CaptureFile)
    (files : List CaptureFile) :
    (Averages.meas <$> a.averageEdgeToEdge expectMax estimate (file :: files) tolerance =
      a.samplePeriodOf file >>= fun samplePeriod =>
        List.flatten <$> (file :: files).mapM
          (a.accepted (a.measureEdgeToEdge expectMax) estimate tolerance samplePeriod)) ∧
    (Averages.meas <$> a.averageEdgeToSfd bitWidth expectMaxEdge expectMaxSfd estimate
        (file :: files) tolerance =
      a.templatesOf bitWidth file >>= fun c =>
        List.flatten <$> (file :: files).mapM
          (a.accepted (a.measureEdgeToSfd expectMaxEdge expectMaxSfd) estimate tolerance c)) ∧
    ((∀ f ∈ files, a.samplePeriodOf f = a.samplePeriodOf file) →
      Averages.meas <$> a.averageEdgeToEdge expectMax estimate (file :: files) tolerance =
        List.flatten <$> (file :: files).mapM fun f =>
          Averages.meas <$> a.averageEdgeToEdge expectMax estimate [f] tolerance) ∧
    ((∀ f ∈ files, a.samplePeriodOf f = a.samplePeriodOf file ∧
        a.samplesOf f = a.samplesOf file) →
      Averages.meas <$> a.averageEdgeToSfd bitWidth expectMaxEdge expectMaxSfd estimate
          (file :: files) tolerance =
        List.flatten <$> (file :: files).mapM fun f =>
          Averages.meas <$> a.averageEdgeToSfd bitWidth expectMaxEdge expectMaxSfd estimate [f]
            tolerance) :=
  ⟨meas_average_cons a, meas_average_cons a, fun h => meas_average_of_cacheOf a h, fun h =>
    meas_average_of_cacheOf a fun f hf => templatesOf_congr a (h f hf).1 (h f hf).2⟩

/-- A capture of the channels 1, 3 and 4 with the given sample interval,
the number of points and their bytes. -/
def captureText (interval points size : String) (samples : Bytes) : Bytes :=
  let preamble (ch : String) := [ascii "#preamble:", ascii ch, ascii "COMM_TYPE : word",
    ascii "WAVE_ARRAY_COUNT : " ++ ascii points, ascii "SWEEPS_PER_ACQ : 1",
    ascii "HORIZ_INTERVAL : " ++ ascii interval, ascii "HORIZ_OFFSET : 0",
    ascii "VERTICAL_GAIN : 1", ascii "VERTICAL_OFFSET : 0", ascii "TIMEBASE : 1_s/div",
    ascii "#preamble_end:"]
  let block (ch : String) :=
    [ascii "#waveform_data:", ascii ch ++ ascii ":WF DAT1,#1" ++ ascii size ++ samples]
  fileHeader LeCroy8254.magic (ascii "1,3,4") ⟨1, 0, 2015, 0, 0, 0⟩ ++
    (preamble "C1" ++ preamble "C3" ++ preamble "C4" ++ block "C1" ++ block "C3" ++
      block "C4").flatMap (· ++ [newline])

/-- A peak search that returns the estimate times the first value of the
correlation, here the length of its second signal. -/
def lengthAnalysis : Analysis where
  keys wfData := wfData.map Prod.fst
  correlateCircular _ signal2 := pure ([0], [signal2.length])
  peakPosition _ signal xEstimate := pure (xEstimate * signal.headD 0)

/-- Two points one second apart, and two captures that differ from it. -/
def reference : CaptureFile := ⟨ascii "1", captureText "1" "2" "4" [0, 0, 1, 0]⟩

@[inherit_doc reference]
def otherInterval : CaptureFile := ⟨ascii "2", captureText "2" "2" "4" [0, 0, 1, 0]⟩

@[inherit_doc reference]
def otherLength : CaptureFile := ⟨ascii "3", captureText "1" "4" "8" [0, 0, 1, 0, 0, 0, 1, 0]⟩

/-- A run over two captures with one interval and one length. -/
theorem meas_average_independent_two :
    Averages.meas <$> lengthAnalysis.averageEdgeToSfd 20 1 0 0
        [reference, { reference with filename := ascii "4" }] 100 =
      List.flatten <$> [reference, { reference with filename := ascii "4" }].mapM fun f =>
        Averages.meas <$> lengthAnalysis.averageEdgeToSfd 20 1 0 0 [f] 100 :=
  (meas_average_independent lengthAnalysis 20 1 1 0 0 100 reference
    [{ reference with filename := ascii "4" }]).2.2.2 fun f hf => by
      cases List.mem_singleton.1 hf
      exact ⟨rfl, rfl⟩

/-- **A second file is measured as the first was**, with its interval and,
for the SFD, with templates of its length. -/
theorem meas_average_reused :
    (Averages.meas <$> lengthAnalysis.averageEdgeToEdge 1 0 [reference, otherInterval] 100 =
        .ok [2, 2] ∧
      (List.flatten <$> [reference, otherInterval].mapM fun f =>
        Averages.meas <$> lengthAnalysis.averageEdgeToEdge 1 0 [f] 100) = .ok [2, 4]) ∧
    Averages.meas <$> lengthAnalysis.averageEdgeToSfd 20 1 0 0 [reference, otherLength] 100 =
        .ok [2, 2] ∧
      (List.flatten <$> [reference, otherLength].mapM fun f =>
        Averages.meas <$> lengthAnalysis.averageEdgeToSfd 20 1 0 0 [f] 100) = .ok [2, 4] := by
  decide +kernel

end Analysis

end Delay

end WrCalibration
