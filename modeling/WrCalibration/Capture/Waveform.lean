import WrCalibration.Common.FileObject

/-!
# What the oscilloscope libraries share

The three libraries write and read one file layout: a header of marked
lines, one preamble a channel, one data block a channel. The parts they
have word for word in common are here, the data model of a capture, the
file header with its reader, and the conversion of raw samples, of which
the libraries differ in one sign.
-/

namespace WrCalibration

namespace Capture

open Python FileM

/-! ## The data model -/

/-- **The preamble dictionary**; a key that was never set is `none`. -/
structure Preamble where
  format : Option Bytes := none
  type : Option Bytes := none
  points : Option ℤ := none
  count : Option ℤ := none
  xIncrement : Option ℚ := none
  xOrigin : Option ℚ := none
  xReference : Option ℚ := none
  yIncrement : Option ℚ := none
  yOrigin : Option ℚ := none
  yReference : Option ℚ := none
  coupling : Option Bytes := none
  xDisplayRange : Option ℚ := none
  xDisplayOrigin : Option ℚ := none
  yDisplayRange : Option ℚ := none
  yDisplayOrigin : Option ℚ := none
  date : Option Bytes := none
  time : Option Bytes := none
  frameModel : Option Bytes := none
  acquisitionMode : Option Bytes := none
  completion : Option ℤ := none
  xUnits : Option Bytes := none
  yUnits : Option Bytes := none
  bandwidthMaximum : Option ℚ := none
  bandwidthMinimum : Option ℚ := none
  deriving DecidableEq

/-- The axes of a waveform: the array `[x, y]`. -/
abbrev Axes := List ℚ × List ℚ

/-- The dictionary of one channel. The waveform comes last in the file. -/
structure Channel where
  byteOrder : Bytes
  preamble : Preamble
  waveform : Option Axes := none
  deriving DecidableEq

/-- `waveform_data` -/
abbrev WaveformData := Dict ℤ Channel

/-- A dictionary entry that has to be there. -/
def field {α : Type} : Option α → Py α
  | some a => pure a
  | none => throw .keyError

/-! ## The record length -/

/-- The four entries `check_waveforms` reads of a channel. -/
def checkedEntries (waveformData : WaveformData) (ch : ℤ) : Py (ℤ × ℤ × ℚ × ℚ) := do
  let preamble := (← Dict.getItem waveformData ch).preamble
  pure (← field preamble.points, ← field preamble.count, ← field preamble.xIncrement,
    ← field preamble.xDisplayRange)

/-- `check_waveforms`, over the channels in the order `keys()` lists them.
A channel that differs from the first is warned about, no more: the
record length is that of the first. -/
def checkWaveforms (waveformData : WaveformData) : List ℤ → Py ℤ
  | [] => throw .nameError
  | channel :: others => do
    let (points, _, _, _) ← checkedEntries waveformData channel
    let _ ← others.mapM (checkedEntries waveformData)
    pure points

/-! ## Raw samples -/

/-- A format of `struct`: the byte order and the size of one signed
integer. -/
structure StructFormat where
  bigEndian : Bool
  size : ℕ
  deriving DecidableEq

/-- `_byteorder_conversion[byte_order][format]` -/
def byteorderConversion (byteOrder format : Bytes) : Py StructFormat := do
  let bigEndian ←
    if byteOrder = ascii "MSBFIRST" then pure true
    else if byteOrder = ascii "LSBFIRST" then pure false
    else throw .keyError
  let size ←
    if format = ascii "BYTE" then pure 1
    else if format = ascii "WORD" then pure 2
    else if format = ascii "BINARY" then pure 4
    else throw .keyError
  pure { bigEndian, size }

/-- The signed integer a group of bytes denotes. -/
def signedValue (fmt : StructFormat) (group : Bytes) : ℤ :=
  let digits := group.map UInt8.toNat
  let unsigned : ℕ := Nat.ofDigits 256 (if fmt.bigEndian then digits.reverse else digits)
  if unsigned < 2 ^ (8 * fmt.size - 1) then unsigned else unsigned - 2 ^ (8 * fmt.size)

/-- `struct.unpack` of a count of integers, which takes exactly their
bytes. -/
def unpack (fmt : StructFormat) (count : ℤ) (data : Bytes) : Py (List ℤ) :=
  if 0 ≤ count ∧ (data.length : ℤ) = fmt.size * count then
    pure ((List.range count.toNat).map fun j =>
      signedValue fmt ((data.drop (j * fmt.size)).take fmt.size))
  else throw .structError

/-- `raw_to_scipy_array`. `scale sample y_increment y_origin` is the one
place where the libraries differ. -/
def rawToScipyArray (scale : ℚ → ℚ → ℚ → ℚ) (waveformRaw byteOrder : Bytes) (preamble : Preamble) :
    Py Axes := do
  let fmt ← byteorderConversion byteOrder (← field preamble.format)
  let points ← field preamble.points
  let samples ← unpack fmt points waveformRaw
  let yIncrement ← field preamble.yIncrement
  let yOrigin ← field preamble.yOrigin
  let yData := samples.map fun s : ℤ => scale s yIncrement yOrigin
  let xIncrement ← field preamble.xIncrement
  let xOrigin ← field preamble.xOrigin
  let xData := (List.range points.toNat).map fun j : ℕ => j * xIncrement + xOrigin
  pure (xData, yData)

/-- The `j`-th little-endian signed 16-bit word of a block. -/
def wordLE (data : Bytes) (j : ℕ) : ℤ :=
  let unsigned := (data.getD (2 * j) 0).toNat + 256 * (data.getD (2 * j + 1) 0).toNat
  if unsigned < 32768 then unsigned else unsigned - 65536

/-- **The conversion of a block of little-endian words.** -/
theorem rawToScipyArray_word (scale : ℚ → ℚ → ℚ → ℚ) {data : Bytes} {preamble : Preamble} {p : ℕ}
    {gain offset interval origin : ℚ} (hlen : data.length = 2 * p)
    (hformat : preamble.format = some (ascii "WORD")) (hpoints : preamble.points = some (p : ℤ))
    (hgain : preamble.yIncrement = some gain) (hoffset : preamble.yOrigin = some offset)
    (hinterval : preamble.xIncrement = some interval) (horigin : preamble.xOrigin = some origin) :
    rawToScipyArray scale data (ascii "LSBFIRST") preamble =
      .ok ((List.range p).map fun j : ℕ => j * interval + origin,
        (List.range p).map fun j => scale (wordLE data j) gain offset) := by
  have hconv : byteorderConversion (ascii "LSBFIRST") (ascii "WORD") = .ok ⟨false, 2⟩ := rfl
  have hword : ∀ j < p, signedValue ⟨false, 2⟩ ((data.drop (j * 2)).take 2) = wordLE data j := by
    intro j hj
    have h0 : 2 * j < data.length := by omega
    have h1 : 2 * j + 1 < data.length := by omega
    have hgroup : (data.drop (j * 2)).take 2 = [data[2 * j], data[2 * j + 1]] := by
      rw [mul_comm, List.drop_eq_getElem_cons h0, List.drop_eq_getElem_cons h1]
      rfl
    rw [hgroup, wordLE, List.getD_eq_getElem _ _ h0, List.getD_eq_getElem _ _ h1]
    have hvalue : Nat.ofDigits 256 [data[2 * j].toNat, data[2 * j + 1].toNat] =
        data[2 * j].toNat + 256 * data[2 * j + 1].toNat := by
      rw [Nat.ofDigits_cons, Nat.ofDigits_singleton]
    simp [signedValue, hvalue]
  have hunpack : unpack ⟨false, 2⟩ p data = .ok ((List.range p).map (wordLE data)) := by
    rw [unpack, if_pos ⟨by omega, by rw [hlen]; push_cast; rfl⟩, Int.toNat_natCast]
    exact congrArg Except.ok (List.map_congr_left fun j hj => hword j (List.mem_range.1 hj))
  simp only [rawToScipyArray, hformat, hpoints, hgain, hoffset, hinterval, horigin, field, bind,
    Except.bind, pure, Except.pure, hconv, hunpack, List.map_map, Int.toNat_natCast,
    Function.comp_def]

/-! ## The file header -/

/-- The separators of header lines and of lists. -/
def colon : UInt8 := 58

@[inherit_doc colon] def comma : UInt8 := 44

/-- What `time.localtime()` returns, as far as it is printed. -/
structure LocalTime where
  day : ℕ
  month : Fin 12
  year : ℕ
  hour : ℕ
  minute : ℕ
  second : ℕ

def monthNames : List Bytes :=
  [ascii "Jan", ascii "Feb", ascii "Mar", ascii "Apr", ascii "May", ascii "Jun", ascii "Jul",
    ascii "Aug", ascii "Sep", ascii "Oct", ascii "Nov", ascii "Dec"]

/-- `strftime("%d %b %Y")` -/
def strftimeDate (t : LocalTime) : Bytes :=
  zeroPadded 2 t.day ++ ascii " " ++ monthNames.get t.month ++ ascii " " ++ decimal t.year

/-- `strftime("%H:%M:%S")` -/
def strftimeTime (t : LocalTime) : Bytes :=
  zeroPadded 2 t.hour ++ colon :: (zeroPadded 2 t.minute ++ colon :: zeroPadded 2 t.second)

/-- The header lines after the magic and the version. -/
def headerMarks (channels : Bytes) (t : LocalTime) : List Bytes :=
  [ascii "#type:RAW", ascii "#channel:" ++ channels, ascii "#date:" ++ strftimeDate t,
    ascii "#time:" ++ strftimeTime t, ascii "#byteorder:LSBFIRST"]

/-- `file_header` -/
def fileHeader (magic : String) (channels : Bytes) (t : LocalTime) : Bytes :=
  (ascii magic :: ascii "#version:0.2" :: headerMarks channels t).flatMap (· ++ [newline])

/-- The check of the first two lines; a file that fails it is not read
further. -/
def checkMagic (magic : String) : FileM Bool := do
  let line ← readline
  if strip line ≠ ascii magic then return false
  let line ← readline
  let version := (strip line).splitOn colon
  if (← listItem version 0) = ascii "#version" then
    return (← listItem version 1) = ascii "0.2"
  else
    return false

/-- What is done with a line that begins with a mark. -/
def onMark {m : Type → Type} [Monad m] {σ : Type} (mark : String) (line : Bytes) (act : m σ)
    (st : σ) : m σ :=
  if startsWith (ascii mark) line then act else pure st

section OnMark

variable {m : Type → Type} [Monad m] {σ : Type} {mark : String} {line : Bytes} {act : m σ} {st : σ}

theorem onMark_of_startsWith (h : startsWith (ascii mark) line = true) :
    onMark mark line act st = act := by
  rw [onMark, if_pos h]

theorem onMark_of_not_startsWith (h : startsWith (ascii mark) line = false) :
    onMark mark line act st = pure st := by
  rw [onMark, h]
  rfl

end OnMark

/-- What the header lines leave bound. -/
structure Header where
  dateInFile : Option Bytes := none
  timeInFile : Option Bytes := none
  byteOrder : Option Bytes := none

/-- The header tests of the loop over the file. -/
def headerLine (line : Bytes) (h : Header) : Py Header := do
  let items := line.splitOn colon
  let h ← onMark "#date:" line
    (do pure { h with dateInFile := some (strip (← listItem items 1)) }) h
  let h ← onMark "#time:" line
    (do
      let hour ← listItem items 1
      let minute ← listItem items 2
      let second ← listItem items 3
      pure { h with timeInFile := some (strip hour ++ ascii ":" ++ strip minute ++ ascii ":" ++
        strip second) }) h
  onMark "#byteorder:" line (do pure { h with byteOrder := some (strip (← listItem items 1)) }) h

/-- A line with none of the three marks leaves the header alone. -/
theorem headerLine_of_not_startsWith {line : Bytes} (h : Header)
    (hdate : startsWith (ascii "#date:") line = false)
    (htime : startsWith (ascii "#time:") line = false)
    (horder : startsWith (ascii "#byteorder:") line = false) : headerLine line h = .ok h := by
  simp only [headerLine, onMark_of_not_startsWith hdate, onMark_of_not_startsWith htime,
    onMark_of_not_startsWith horder]
  rfl

theorem headerLine_date {d : Bytes} (h : Header) (hd : colon ∉ d) :
    headerLine (ascii "#date:" ++ d ++ [newline]) h =
      .ok { h with dateInFile := some (strip d) } := by
  have hnl : colon ∉ d ++ [newline] := by
    rw [List.mem_append, not_or]
    exact ⟨hd, by decide⟩
  have hitems : (ascii "#date:" ++ d ++ [newline]).splitOn colon =
      [ascii "#date", d ++ [newline]] := by
    rw [List.append_assoc, show ascii "#date:" ++ (d ++ [newline]) =
      ascii "#date" ++ colon :: (d ++ [newline]) from rfl,
      List.splitOn_append_cons_self_of_not_mem (by decide), List.splitOn_eq_singleton hnl]
  simp only [headerLine, hitems]
  rw [onMark_of_startsWith rfl, ← strip_append_newline d]
  rfl

theorem headerLine_time {a b c : Bytes} (h : Header) (ha : ∀ x ∈ a, isDigit x = true)
    (hb : ∀ x ∈ b, isDigit x = true) (hc : ∀ x ∈ c, isDigit x = true) :
    headerLine (ascii "#time:" ++ (a ++ colon :: (b ++ colon :: c)) ++ [newline]) h =
      .ok { h with timeInFile := some (a ++ ascii ":" ++ b ++ ascii ":" ++ c) } := by
  have hnl : colon ∉ c ++ [newline] := by
    rw [List.mem_append, not_or]
    exact ⟨not_mem_of_isDigit hc (by decide), by decide⟩
  have hitems : (ascii "#time:" ++ (a ++ colon :: (b ++ colon :: c)) ++ [newline]).splitOn colon =
      [ascii "#time", a, b, c ++ [newline]] := by
    rw [List.append_assoc, List.append_assoc, List.cons_append, List.append_assoc, List.cons_append,
      show ascii "#time:" ++ (a ++ colon :: (b ++ colon :: (c ++ [newline]))) =
        ascii "#time" ++ colon :: (a ++ colon :: (b ++ colon :: (c ++ [newline]))) from rfl,
      List.splitOn_append_cons_self_of_not_mem (by decide),
      List.splitOn_append_cons_self_of_not_mem (not_mem_of_isDigit ha (by decide)),
      List.splitOn_append_cons_self_of_not_mem (not_mem_of_isDigit hb (by decide)),
      List.splitOn_eq_singleton hnl]
  have hstrip : some (strip a ++ ascii ":" ++ strip b ++ ascii ":" ++ strip (c ++ [newline])) =
      some (a ++ ascii ":" ++ b ++ ascii ":" ++ c) := by
    rw [strip_of_isDigit ha, strip_of_isDigit hb, strip_append_newline, strip_of_isDigit hc]
  simp only [headerLine, hitems]
  rw [onMark_of_not_startsWith rfl]
  simp only [bind, Except.bind, pure, Except.pure]
  rw [onMark_of_startsWith rfl, ← hstrip]
  rfl

/-- The printed date has none of the bytes a reader looks for. -/
theorem not_mem_strftimeDate (t : LocalTime) :
    colon ∉ strftimeDate t ∧ newline ∉ strftimeDate t := by
  have hname : ∀ name ∈ monthNames, colon ∉ name ∧ newline ∉ name := by decide
  have hmonth := hname _ (List.get_mem monthNames t.month)
  have hspace : colon ∉ ascii " " ∧ newline ∉ ascii " " := by decide
  simp only [strftimeDate, List.mem_append, not_or]
  have hday := zeroPadded_isDigit 2 t.day
  have hyear := decimal_isDigit t.year
  exact ⟨⟨⟨⟨⟨not_mem_of_isDigit hday rfl, hspace.1⟩, hmonth.1⟩, hspace.1⟩,
      not_mem_of_isDigit hyear rfl⟩,
    ⟨⟨⟨not_mem_of_isDigit hday rfl, hspace.2⟩, hmonth.2⟩, hspace.2⟩,
      not_mem_of_isDigit hyear rfl⟩

theorem newline_not_mem_strftimeTime (t : LocalTime) : newline ∉ strftimeTime t := by
  have hdigit : ∀ n, newline ∉ zeroPadded 2 n := fun n =>
    not_mem_of_isDigit (zeroPadded_isDigit 2 n) rfl
  have hcolon : newline ≠ colon := by decide
  simp only [strftimeTime, List.mem_append, List.mem_cons, not_or]
  exact ⟨hdigit _, hcolon, hdigit _, hcolon, hdigit _⟩

/-- Every header line is one line. -/
theorem newline_not_mem_headerMarks {channels : Bytes} (hc : newline ∉ channels) (t : LocalTime) :
    ∀ l ∈ headerMarks channels t, newline ∉ l := by
  have hmark : ∀ {a b : Bytes}, newline ∉ a → newline ∉ b → newline ∉ a ++ b := by
    intro a b ha hb
    rw [List.mem_append, not_or]
    exact ⟨ha, hb⟩
  intro l hl
  simp only [headerMarks, List.mem_cons, List.not_mem_nil, or_false] at hl
  rcases hl with rfl | rfl | rfl | rfl | rfl
  · decide
  · exact hmark (by decide) hc
  · exact hmark (by decide) (not_mem_strftimeDate t).2
  · exact hmark (by decide) (newline_not_mem_strftimeTime t)
  · decide

/-- What a written header leaves bound. -/
def writtenHeader (t : LocalTime) : Header where
  dateInFile := some (strip (strftimeDate t))
  timeInFile := some (strftimeTime t)
  byteOrder := some (ascii "LSBFIRST")

/-- **The header, read back.** -/
theorem foldlM_headerLine (channels : Bytes) (t : LocalTime) :
    (headerMarks channels t).foldlM (fun h l => headerLine (l ++ [newline]) h) {} =
      .ok (writtenHeader t) := by
  have htype : ∀ h, headerLine (ascii "#type:RAW" ++ [newline]) h = .ok h := fun h =>
    headerLine_of_not_startsWith h rfl rfl rfl
  have hchannel : ∀ h, headerLine (ascii "#channel:" ++ channels ++ [newline]) h = .ok h := fun h =>
    headerLine_of_not_startsWith h rfl rfl rfl
  have hdate := fun h => headerLine_date h (not_mem_strftimeDate t).1
  have htime := fun h => headerLine_time h (zeroPadded_isDigit 2 t.hour)
    (zeroPadded_isDigit 2 t.minute) (zeroPadded_isDigit 2 t.second)
  have horder : ∀ h, headerLine (ascii "#byteorder:LSBFIRST" ++ [newline]) h =
      .ok { h with byteOrder := some (ascii "LSBFIRST") } := fun h => rfl
  simp only [headerMarks, List.foldlM_cons, htype, hchannel, hdate, strftimeTime, htime, horder,
    bind, Except.bind]
  refine congrArg Except.ok ?_
  simp only [writtenHeader, strftimeTime]
  rw [List.append_assoc, List.append_assoc, List.append_assoc]
  rfl

/-- The first two lines of a written file pass the check. -/
theorem checkMagic_fileHeader {magic : String} {channels : Bytes} (t : LocalTime) (rest : Bytes)
    (hline : newline ∉ ascii magic) (hstrip : strip (ascii magic) = ascii magic) :
    checkMagic magic (fileHeader magic channels t ++ rest) =
      .ok (true, (headerMarks channels t).flatMap (· ++ [newline]) ++ rest) := by
  have hfirst : fileHeader magic channels t ++ rest = ascii magic ++ newline ::
      (ascii "#version:0.2" ++ newline ::
        ((headerMarks channels t).flatMap (· ++ [newline]) ++ rest)) := by
    simp [fileHeader]
  rw [hfirst]
  simp only [checkMagic, readline, bind, StateT.bind, Except.bind, pure, Except.pure,
    splitLine_line hline, strip_append_newline, hstrip, ne_eq, not_true_eq_false, if_false]
  rw [splitLine_line (by decide)]
  rfl

end Capture

end WrCalibration
