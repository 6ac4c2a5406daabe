import WrCalibration.Capture.Waveform

/-!
# The Keysight and the Agilent library

Both instruments answer with a comma-separated preamble, and their
libraries are one text up to the names and the fields of it: the file
has no channel number in any section, the reader counts sections and
looks the number up in the `#channel:` line. The shared text is one
definition here, and each library instantiates it.
-/

namespace WrCalibration

namespace Capture

namespace CommaSeparated

open Python FileM

/-! ## Preamble fields -/

/-- A computation that pops fields off a preamble. -/
abbrev FieldsM := StateT (List Bytes) Py

/-- `preamble_fields.pop(0)` -/
def pop : FieldsM Bytes := fun fields =>
  match fields with
  | [] => throw .indexError
  | f :: fields => pure (f, fields)

/-- `table[int(field)]` -/
def enumerated (table : Dict ℤ Bytes) (f : Bytes) : Py Bytes := do
  Dict.getItem table (← pyInt f)

/-- A field without the quotes around it. -/
def unquoted (f : Bytes) : Py Bytes := pure (stripWhere (· == 34) f)

/-- The ten fields both preambles begin with. -/
def scaledFields (formats types : Dict ℤ Bytes) : FieldsM Preamble := do
  let format ← enumerated formats (← pop)
  let type ← enumerated types (← pop)
  let points ← pyInt (← pop)
  let count ← pyInt (← pop)
  let xIncrement ← pyFloat (← pop)
  let xOrigin ← pyFloat (← pop)
  let xReference ← pyFloat (← pop)
  let yIncrement ← pyFloat (← pop)
  let yOrigin ← pyFloat (← pop)
  let yReference ← pyFloat (← pop)
  pure {
    format := some format, type := some type, points := some points, count := some count
    xIncrement := some xIncrement, xOrigin := some xOrigin, xReference := some xReference
    yIncrement := some yIncrement, yOrigin := some yOrigin, yReference := some yReference }

/-- `preamble_string_to_dict` for the given fields: none may be left. -/
def preambleStringToDict (fields : FieldsM Preamble) (preambleString : Bytes) : Py Preamble := do
  let (preamble, rest) ← fields (preambleString.splitOn comma)
  if rest ≠ [] then
    throw (.exception "preamble_string_to_dict: Excess information in preamble")
  pure preamble

/-! ## A library -/

/-- What the two libraries differ in. -/
structure Library where
  magic : String
  fields : FieldsM Preamble

/-- The oscilloscope, as the answers it gives to a query once a source
was selected. -/
structure Scope where
  ask : Bytes → Bytes → Bytes
  askRaw : Bytes → Bytes → Bytes

/-- The command that selects a source. -/
def sourceCommand (chan : Bytes) : Bytes := ascii ":WAVeform:SOURce CHANnel" ++ chan

/-- `get_waveforms`: the bytes of the file it writes. -/
def getWaveforms (lib : Library) (scope : Scope) (channels : Bytes) (timestamp : LocalTime) :
    Bytes :=
  let chans := channels.splitOn comma
  let channelPreamble := chans.flatMap fun chan =>
    ascii "#preamble:" ++ [newline] ++
      (scope.ask (sourceCommand chan) (ascii ":WAVeform:PREamble?") ++ [newline])
  let channelData := chans.flatMap fun chan =>
    ascii "#waveform:" ++ [newline] ++
      (scope.askRaw (sourceCommand chan) (ascii ":WAVeform:DATA?") ++ [newline])
  fileHeader lib.magic channels timestamp ++ channelPreamble ++ channelData

/-- `raw_to_scipy_array` adds the vertical origin. -/
def scale (sample yIncrement yOrigin : ℚ) : ℚ := sample * yIncrement + yOrigin

/-- What the loop over the file carries: with the header, the channel
names and how many of each section were read. -/
structure ReaderState where
  header : Header := {}
  channels : List Bytes := []
  preambleIdx : ℕ := 0
  waveformIdx : ℕ := 0
  waveformData : WaveformData := []

/-- What follows `#preamble:`. -/
def readPreamble (lib : Library) (st : ReaderState) : FileM ReaderState := do
  let preambleChan ← pyInt (← listItem st.channels st.preambleIdx)
  let byteOrder ← bound st.header.byteOrder
  let preambleString ← readline
  let preamble ← preambleStringToDict lib.fields preambleString
  pure { st with
    waveformData := st.waveformData.set preambleChan { byteOrder, preamble }
    preambleIdx := st.preambleIdx + 1 }

/-- What follows `#waveform:`. The newline after the block is left in the
file. -/
def readWaveform (st : ReaderState) : FileM ReaderState := do
  let waveformChan ← pyInt (← listItem st.channels st.waveformIdx)
  let _ ← read 1
  let wfNoOfDigits ← pyInt (← read 1)
  let wfSamples ← pyInt (← read wfNoOfDigits)
  let waveformRaw ← read wfSamples
  let byteOrder ← bound st.header.byteOrder
  let channel ← Dict.getItem st.waveformData waveformChan
  let waveform ← rawToScipyArray scale waveformRaw byteOrder channel.preamble
  pure { st with
    waveformData := st.waveformData.set waveformChan { channel with waveform := some waveform }
    waveformIdx := st.waveformIdx + 1 }

/-- The tests of the header lines, the list of channels among them. -/
def headLine (line : Bytes) (st : ReaderState) : Py ReaderState := do
  let st ← onMark "#channel:" line
    (do
      let chanStr := strip (← listItem (line.splitOn colon) 1)
      pure { st with channels := chanStr.splitOn comma }) st
  let header ← headerLine line st.header
  pure { st with header }

/-- The body of the loop of `file_to_waveform`. -/
def fileBody (lib : Library) (line : Bytes) (st : ReaderState) :
    FileM (ForInStep ReaderState) := do
  let st ← headLine line st
  let st ← onMark "#preamble:" line (readPreamble lib st) st
  let st ← onMark "#waveform:" line (readWaveform st) st
  pure (.yield st)

/-- `file_to_waveform` -/
def fileToWaveform (lib : Library) (file : Bytes) : Py (Option WaveformData) := do
  let (ok, rest) ← checkMagic lib.magic file
  if ok then
    let (st, _) ← forLines (fileBody lib) {} rest
    pure (some st.waveformData)
  else pure none

end CommaSeparated

/-! ## The Keysight DSO-S 254A -/

namespace Keysight

open Python CommaSeparated

def formats : Dict ℤ Bytes :=
  [(0, ascii "ASCII"), (1, ascii "BYTE"), (2, ascii "WORD"), (3, ascii "LONG")]

def types : Dict ℤ Bytes :=
  [(1, ascii "RAW"), (2, ascii "AVERAGE"), (3, ascii "VHISTOGRAM"), (4, ascii "HHISTOGRAM"),
    (6, ascii "INTERPOLATE"), (10, ascii "PDETECT")]

def couplings : Dict ℤ Bytes :=
  [(0, ascii "AC"), (1, ascii "DC"), (2, ascii "DCFIFTY"), (3, ascii "LFREJECT")]

def acquisitionModes : Dict ℤ Bytes :=
  [(0, ascii "RTIME"), (1, ascii "ETIME"), (3, ascii "PDETECT")]

def units : Dict ℤ Bytes :=
  [(0, ascii "UNKNOWN"), (1, ascii "VOLT"), (2, ascii "SECOND"), (3, ascii "CONSTANT"),
    (4, ascii "AMP"), (5, ascii "DECIBEL")]

/-- The twenty-four fields of a Keysight preamble. -/
def fields : FieldsM Preamble := do
  let preamble ← scaledFields formats types
  let coupling ← enumerated couplings (← pop)
  let xDisplayRange ← pyFloat (← pop)
  let xDisplayOrigin ← pyFloat (← pop)
  let yDisplayRange ← pyFloat (← pop)
  let yDisplayOrigin ← pyFloat (← pop)
  let date ← unquoted (← pop)
  let time ← unquoted (← pop)
  let frameModel ← unquoted (← pop)
  let acquisitionMode ← enumerated acquisitionModes (← pop)
  let completion ← pyInt (← pop)
  let xUnits ← enumerated units (← pop)
  let yUnits ← enumerated units (← pop)
  let bandwidthMaximum ← pyFloat (← pop)
  let bandwidthMinimum ← pyFloat (← pop)
  pure { preamble with
    coupling := some coupling
    xDisplayRange := some xDisplayRange, xDisplayOrigin := some xDisplayOrigin
    yDisplayRange := some yDisplayRange, yDisplayOrigin := some yDisplayOrigin
    date := some date, time := some time, frameModel := some frameModel
    acquisitionMode := some acquisitionMode, completion := some completion
    xUnits := some xUnits, yUnits := some yUnits
    bandwidthMaximum := some bandwidthMaximum, bandwidthMinimum := some bandwidthMinimum }

def library : Library where
  magic := "#WaveformData:Keysight DSO-S 254A"
  fields := fields

end Keysight

/-! ## The Agilent DSO6104A -/

namespace Agilent

open Python CommaSeparated

def formats : Dict ℤ Bytes := [(0, ascii "BYTE"), (1, ascii "WORD"), (4, ascii "ASCII")]

def types : Dict ℤ Bytes := [(0, ascii "NORMMAL"), (1, ascii "PDETECT"), (2, ascii "AVERAGE")]

/-- The ten fields of an Agilent preamble. -/
def fields : FieldsM Preamble := scaledFields formats types

def library : Library where
  magic := "#WaveformData:Agilent DSO6104A"
  fields := fields

end Agilent

end Capture

end WrCalibration
