import WrCalibration.Capture.Waveform

/-!
# The LeCroy library

`get_waveforms` writes three sections, the preambles, the descriptors
and the data blocks; `file_to_waveform` scans the file line by line and
lets a preamble and a data block consume what follows their mark. A
preamble is a text of `KEY : value` lines, and a data block names its
own channel.
-/

namespace WrCalibration

namespace Capture

namespace LeCroy8254

open Python FileM

/-- The first line of a capture file. -/
def magic : String := "#WaveformData:LeCroy8254"

/-! ## Writing -/

/-- The oscilloscope, as the answers it gives to the queries. -/
structure Scope where
  ask : Bytes → Bytes
  askRaw : Bytes → Bytes

/-- The three queries for one channel. -/
def inspectQuery (chan : Bytes) : Bytes := ascii "C" ++ chan ++ ascii ":INSPECT? WAVEDESC"

@[inherit_doc inspectQuery]
def descQuery (chan : Bytes) : Bytes := ascii "C" ++ chan ++ ascii ":WAVEFORM? DESC"

@[inherit_doc inspectQuery]
def dataQuery (chan : Bytes) : Bytes := ascii "C" ++ chan ++ ascii ":WAVEFORM? DAT1"

/-- `get_waveforms`: the bytes of the file it writes. -/
def getWaveforms (scope : Scope) (channels : Bytes) (timestamp : LocalTime) : Bytes :=
  let chans := channels.splitOn comma
  let channelPreamble := chans.flatMap fun chan =>
    ascii "#preamble:" ++ [newline] ++ (scope.ask (inspectQuery chan) ++ [newline]) ++
      (ascii "#preamble_end:" ++ [newline])
  let channelDescriptor := chans.flatMap fun chan =>
    ascii "#waveform_desc:" ++ [newline] ++ scope.askRaw (descQuery chan)
  let channelData := chans.flatMap fun chan =>
    ascii "#waveform_data:" ++ [newline] ++ scope.askRaw (dataQuery chan)
  fileHeader magic channels timestamp ++ channelPreamble ++ channelDescriptor ++ channelData

/-! ## The preamble -/

/-- `_timebase` -/
def timebase : Dict Bytes ℚ :=
  [(ascii "1_ps/div", 1.00000E-12), (ascii "2_ps/div", 2.00000E-12),
    (ascii "5_ps/div", 5.00000E-12), (ascii "10_ps/div", 1.00000E-11),
    (ascii "20_ps/div", 2.00000E-11), (ascii "50_ps/div", 5.00000E-11),
    (ascii "100_ps/div", 1.00000E-10), (ascii "200_ps/div", 2.00000E-10),
    (ascii "500_ps/div", 5.00000E-10), (ascii "1_ns/div", 1.00000E-09),
    (ascii "2_ns/div", 2.00000E-09), (ascii "5_ns/div", 5.00000E-09),
    (ascii "10_ns/div", 1.00000E-08), (ascii "20_ns/div", 2.00000E-08),
    (ascii "50_ns/div", 5.00000E-08), (ascii "100_ns/div", 1.00000E-07),
    (ascii "200_ns/div", 2.00000E-07), (ascii "500_ns/div", 5.00000E-07),
    (ascii "1_us/div", 1.00000E-06), (ascii "2_us/div", 1.00000E-06),
    (ascii "5_us/div", 2.00000E-06), (ascii "10_us/div", 5.00000E-05),
    (ascii "20_us/div", 1.00000E-05), (ascii "50_us/div", 2.00000E-05),
    (ascii "100_us/div", 5.00000E-04), (ascii "200_us/div", 1.00000E-04),
    (ascii "500_us/div", 2.00000E-04), (ascii "1_ms/div", 5.00000E-03),
    (ascii "2_ms/div", 1.00000E-03), (ascii "5_ms/div", 2.00000E-03),
    (ascii "10_ms/div", 5.00000E-02), (ascii "20_ms/div", 1.00000E-02),
    (ascii "50_ms/div", 2.00000E-02), (ascii "100_ms/div", 5.00000E-01),
    (ascii "200_ms/div", 1.00000E-01), (ascii "500_ms/div", 2.00000E-01),
    (ascii "1_s/div", 5.00000E+00), (ascii "2_s/div", 1.00000E+00),
    (ascii "5_s/div", 2.00000E+00), (ascii "10_s/div", 5.00000E+01),
    (ascii "20_s/div", 1.00000E+01), (ascii "50_s/div", 2.00000E+01),
    (ascii "100_s/div", 5.00000E+02), (ascii "200_s/div", 1.00000E+02),
    (ascii "500_s/div", 2.00000E+02), (ascii "1_ks/div", 5.00000E+03),
    (ascii "2_ks/div", 1.00000E+03), (ascii "5_ks/div", 2.00000E+03),
    (ascii "EXTERNAL", 0.00000E+00)]

/-- The keys `get_preamble_from_file` reads. -/
inductive Key where
  | commType | waveArrayCount | sweepsPerAcq | horizInterval | horizOffset | firstPoint
  | verticalGain | verticalOffset | vertCoupling | pixelOffset | timebase | maxValue | minValue
  | instrumentName | recordType | horunit | vertunit
  deriving DecidableEq

/-- The text of a key. -/
def Key.text : Key → Bytes
  | commType => ascii "COMM_TYPE"
  | waveArrayCount => ascii "WAVE_ARRAY_COUNT"
  | sweepsPerAcq => ascii "SWEEPS_PER_ACQ"
  | horizInterval => ascii "HORIZ_INTERVAL"
  | horizOffset => ascii "HORIZ_OFFSET"
  | firstPoint => ascii "FIRST_POINT"
  | verticalGain => ascii "VERTICAL_GAIN"
  | verticalOffset => ascii "VERTICAL_OFFSET"
  | vertCoupling => ascii "VERT_COUPLING"
  | pixelOffset => ascii "PIXEL_OFFSET"
  | timebase => ascii "TIMEBASE"
  | maxValue => ascii "MAX_VALUE"
  | minValue => ascii "MIN_VALUE"
  | instrumentName => ascii "INSTRUMENT_NAME"
  | recordType => ascii "RECORD_TYPE"
  | horunit => ascii "HORUNIT"
  | vertunit => ascii "VERTUNIT"

def Key.all : List Key :=
  [commType, waveArrayCount, sweepsPerAcq, horizInterval, horizOffset, firstPoint, verticalGain,
    verticalOffset, vertCoupling, pixelOffset, timebase, maxValue, minValue, instrumentName,
    recordType, horunit, vertunit]

/-- The key a text names. -/
def Key.ofText (s : Bytes) : Option Key := Key.all.find? (·.text = s)

/-- What the loop over a preamble carries: the dictionary, and the two
grid values once they were found. -/
structure ParseState where
  preamble : Preamble := {}
  yMaxGrid : Option ℚ := none
  yMinGrid : Option ℚ := none

/-- The display range, known once both grid values are. -/
def ParseState.setGrid (st : ParseState) : ParseState :=
  match st.yMaxGrid, st.yMinGrid with
  | some yMaxGrid, some yMinGrid =>
    { st with
      preamble := { st.preamble with
        yDisplayRange := some (yMaxGrid - yMinGrid)
        yDisplayOrigin := some ((yMaxGrid - yMinGrid) / 2) } }
  | _, _ => st

/-- What a line with the key `k` and the value text `v` does. -/
def ParseState.setKey (st : ParseState) (k : Key) (v : Bytes) : Py ParseState :=
  let p := st.preamble
  match k with
  | .commType => pure { st with preamble := { p with format := some (upper (strip v)) } }
  | .waveArrayCount => do pure { st with preamble := { p with points := some (← pyInt v) } }
  | .sweepsPerAcq => do pure { st with preamble := { p with count := some (← pyInt v) } }
  | .horizInterval => do pure { st with preamble := { p with xIncrement := some (← pyFloat v) } }
  | .horizOffset => do pure { st with preamble := { p with xOrigin := some (← pyFloat v) } }
  | .firstPoint => do pure { st with preamble := { p with xReference := some (← pyFloat v) } }
  | .verticalGain => do pure { st with preamble := { p with yIncrement := some (← pyFloat v) } }
  | .verticalOffset => do pure { st with preamble := { p with yOrigin := some (← pyFloat v) } }
  | .vertCoupling => pure { st with preamble := { p with coupling := some (strip v) } }
  | .pixelOffset => do
    pure { st with preamble := { p with xDisplayOrigin := some (← pyFloat v) } }
  | .timebase => do
    let perDiv ← Dict.getItem LeCroy8254.timebase (strip v)
    pure { st with preamble := { p with xDisplayRange := some (10 * perDiv) } }
  | .maxValue => do pure { st with yMaxGrid := some (← pyFloat v) }.setGrid
  | .minValue => do pure { st with yMinGrid := some (← pyFloat v) }.setGrid
  | .instrumentName => pure { st with preamble := { p with frameModel := some (strip v) } }
  | .recordType => pure { st with preamble := { p with acquisitionMode := some (strip v) } }
  | .horunit => pure { st with preamble := { p with xUnits := some (strip v) } }
  | .vertunit => pure { st with preamble := { p with yUnits := some (strip v) } }

/-- The key a line names, if it is one that is read. -/
def lineKey (line : Bytes) : Option Key :=
  Key.ofText (strip ((line.splitOn colon).headD []))

/-- What stands between the first and the second colon of a line. -/
def lineValue (line : Bytes) : Option Bytes := (line.splitOn colon)[1]?

/-- The entries every line sets. -/
def ParseState.setConstants (st : ParseState) (dateInFile timeInFile : Bytes) : ParseState :=
  { st with
    preamble := { st.preamble with
      type := some (ascii "RAW")
      yReference := some 0
      date := some dateInFile
      time := some timeInFile
      completion := some 0
      bandwidthMaximum := some 0
      bandwidthMinimum := some 0 } }

/-- One line of a preamble. -/
def preambleLine (dateInFile timeInFile : Bytes) (st : ParseState) (line : Bytes) :
    Py ParseState := do
  let st ←
    match lineKey line with
    | some k =>
      match lineValue line with
      | some v => st.setKey k v
      | none => throw .indexError
    | none => pure st
  pure (st.setConstants dateInFile timeInFile)

/-- The body of the loop of `get_preamble_from_file`. -/
def preambleBody (dateInFile timeInFile line : Bytes) (st : ParseState) :
    FileM (ForInStep ParseState) :=
  if strip line = ascii "#preamble_end:" then pure (.done st)
  else do pure (.yield (← preambleLine dateInFile timeInFile st line))

/-- `get_preamble_from_file`. The end of the file ends the preamble too:
the exception for it is created and not raised. -/
def getPreambleFromFile (dateInFile timeInFile : Bytes) : FileM Preamble := do
  let st ← forLines (preambleBody dateInFile timeInFile) {}
  pure st.preamble

/-! ## Reading -/

/-- `raw_to_scipy_array` subtracts the vertical offset. -/
def scale (sample yIncrement yOrigin : ℚ) : ℚ := sample * yIncrement - yOrigin

/-- What the loop over the file carries. -/
structure ReaderState where
  header : Header := {}
  waveformData : WaveformData := []

/-- What follows `#preamble:`. The line read first stays the current line
of the loop. -/
def readPreamble (st : ReaderState) : FileM (Bytes × ReaderState) := do
  let line ← readline
  let chanNo ← pyInt [← listItem line 1]
  let byteOrder ← bound st.header.byteOrder
  let dateInFile ← bound st.header.dateInFile
  let timeInFile ← bound st.header.timeInFile
  let preamble ← getPreambleFromFile dateInFile timeInFile
  pure (line, { st with waveformData := st.waveformData.set chanNo { byteOrder, preamble } })

/-- What follows `#waveform_data:`. -/
def readWaveform (st : ReaderState) : FileM ReaderState := do
  let wfHeader ← read 12
  let chanNo ← pyInt [← listItem wfHeader 1]
  let wfNoOfDigits ← pyInt (← read 1)
  let wfSamples ← pyInt (← read wfNoOfDigits)
  let waveformRaw ← read wfSamples
  let byteOrder ← bound st.header.byteOrder
  let channel ← Dict.getItem st.waveformData chanNo
  let waveform ← rawToScipyArray scale waveformRaw byteOrder channel.preamble
  let _ ← readline
  pure { st with
    waveformData := st.waveformData.set chanNo { channel with waveform := some waveform } }

/-- The body of the loop of `file_to_waveform`. -/
def fileBody (line : Bytes) (st : ReaderState) : FileM (ForInStep ReaderState) := do
  let header ← headerLine line st.header
  let st := { st with header }
  let (line, st) ← onMark "#preamble:" line (readPreamble st) (line, st)
  let st ← onMark "#waveform_data:" line (readWaveform st) st
  pure (.yield st)

/-- `file_to_waveform` -/
def fileToWaveform (file : Bytes) : Py (Option WaveformData) := do
  let (ok, rest) ← checkMagic magic file
  if ok then
    let (st, _) ← forLines fileBody {} rest
    pure (some st.waveformData)
  else pure none

end LeCroy8254

end Capture

end WrCalibration
