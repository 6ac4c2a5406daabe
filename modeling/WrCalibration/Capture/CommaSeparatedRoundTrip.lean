import WrCalibration.Capture.CommaSeparated

/-!
# A Keysight or Agilent capture, written and read back

No section of these files names its channel. The invariant that carries
the induction is that the reader's two counters stand where the writer's
lists stand (`forLines_preambles`, `forLines_blocks`): every section was
consumed once, so the next one belongs to the next channel of the list.
-/

namespace WrCalibration

namespace Capture

namespace CommaSeparated

open Python FileM

/-! ## The loop is total -/

theorem shrinks_readPreamble (lib : Library) (st : ReaderState) : Shrinks (readPreamble lib st) :=
  (Shrinks.lift _).bind fun _ => (Shrinks.lift _).bind fun _ => (Shrinks.lift _).bind fun _ =>
    Shrinks.readline.bind fun _ => (Shrinks.lift _).bind fun _ => Shrinks.pure _

theorem shrinks_readWaveform (st : ReaderState) : Shrinks (readWaveform st) :=
  (Shrinks.lift _).bind fun _ => (Shrinks.lift _).bind fun _ => (Shrinks.read _).bind fun _ =>
    (Shrinks.read _).bind fun _ => (Shrinks.lift _).bind fun _ => (Shrinks.read _).bind fun _ =>
      (Shrinks.lift _).bind fun _ => (Shrinks.read _).bind fun _ => (Shrinks.lift _).bind fun _ =>
        (Shrinks.lift _).bind fun _ => (Shrinks.lift _).bind fun _ => Shrinks.pure _

theorem shrinks_fileBody (lib : Library) (line : Bytes) (st : ReaderState) :
    Shrinks (fileBody lib line st) :=
  (Shrinks.lift _).bind fun _ =>
    ((shrinks_readPreamble lib _).ite (Shrinks.pure _)).bind fun _ =>
      ((shrinks_readWaveform _).ite (Shrinks.pure _)).bind fun _ => Shrinks.pure _

/-! ## Preambles -/

/-- A text without a separator in it. -/
abbrev PlainText := { s : Bytes // comma ∉ s ∧ newline ∉ s }

/-- **A field of a preamble**: its text and the value a conversion reads
off it. -/
structure Field {α : Type} (convert : Bytes → Py α) where
  text : PlainText
  value : α
  convert_text : convert text = .ok value

/-- A text with the value of a field is popped off and converted. -/
theorem pop_convert {α β : Type} {convert : Bytes → Py α} (f : Field convert) {s : Bytes}
    (hs : convert s = .ok f.value) (rest : List Bytes) (k : α → FieldsM β) :
    (pop >>= fun s => liftM (convert s) >>= k) (s :: rest) = k f.value rest := by
  change ((liftM (convert s) : FieldsM α) >>= k) rest = _
  rw [hs]
  rfl

/-- The ten fields both preambles begin with. -/
structure ScaledFields (formats types : Dict ℤ Bytes) where
  format : Field (enumerated formats)
  type : Field (enumerated types)
  points : Field pyInt
  count : Field pyInt
  xIncrement : Field pyFloat
  xOrigin : Field pyFloat
  xReference : Field pyFloat
  yIncrement : Field pyFloat
  yOrigin : Field pyFloat
  yReference : Field pyFloat

namespace ScaledFields

variable {formats types : Dict ℤ Bytes} (f : ScaledFields formats types)

/-- The texts of the fields before the tenth. -/
def init : List PlainText :=
  [f.format.text, f.type.text, f.points.text, f.count.text, f.xIncrement.text, f.xOrigin.text,
    f.xReference.text, f.yIncrement.text, f.yOrigin.text]

/-- The dictionary the fields denote. -/
def dict : Preamble where
  format := some f.format.value
  type := some f.type.value
  points := some f.points.value
  count := some f.count.value
  xIncrement := some f.xIncrement.value
  xOrigin := some f.xOrigin.value
  xReference := some f.xReference.value
  yIncrement := some f.yIncrement.value
  yOrigin := some f.yOrigin.value
  yReference := some f.yReference.value

/-- The fields, read back. The tenth text may have the newline still. -/
theorem scaledFields_eq {s : Bytes} (hs : pyFloat s = .ok f.yReference.value)
    (rest : List Bytes) :
    scaledFields formats types (f.init.map Subtype.val ++ s :: rest) = .ok (f.dict, rest) := by
  simp only [init, List.map_cons, List.map_nil, List.cons_append, List.nil_append]
  rw [scaledFields, pop_convert f.format f.format.convert_text,
    pop_convert f.type f.type.convert_text, pop_convert f.points f.points.convert_text,
    pop_convert f.count f.count.convert_text, pop_convert f.xIncrement f.xIncrement.convert_text,
    pop_convert f.xOrigin f.xOrigin.convert_text,
    pop_convert f.xReference f.xReference.convert_text,
    pop_convert f.yIncrement f.yIncrement.convert_text,
    pop_convert f.yOrigin f.yOrigin.convert_text, pop_convert f.yReference hs]
  rfl

end ScaledFields

end CommaSeparated

namespace Keysight

open Python CommaSeparated

/-- The fields of a Keysight preamble. -/
structure Fields where
  scaled : ScaledFields formats types
  coupling : Field (enumerated couplings)
  xDisplayRange : Field pyFloat
  xDisplayOrigin : Field pyFloat
  yDisplayRange : Field pyFloat
  yDisplayOrigin : Field pyFloat
  date : Field unquoted
  time : Field unquoted
  frameModel : Field unquoted
  acquisitionMode : Field (enumerated acquisitionModes)
  completion : Field pyInt
  xUnits : Field (enumerated units)
  yUnits : Field (enumerated units)
  bandwidthMaximum : Field pyFloat
  bandwidthMinimum : Field pyFloat

namespace Fields

variable (f : Fields)

/-- The texts of the fields between the tenth and the last. -/
def middle : List PlainText :=
  [f.coupling.text, f.xDisplayRange.text, f.xDisplayOrigin.text, f.yDisplayRange.text,
    f.yDisplayOrigin.text, f.date.text, f.time.text, f.frameModel.text, f.acquisitionMode.text,
    f.completion.text, f.xUnits.text, f.yUnits.text, f.bandwidthMaximum.text]

/-- The dictionary the fields denote. -/
def dict : Preamble :=
  { f.scaled.dict with
    coupling := some f.coupling.value
    xDisplayRange := some f.xDisplayRange.value
    xDisplayOrigin := some f.xDisplayOrigin.value
    yDisplayRange := some f.yDisplayRange.value
    yDisplayOrigin := some f.yDisplayOrigin.value
    date := some f.date.value
    time := some f.time.value
    frameModel := some f.frameModel.value
    acquisitionMode := some f.acquisitionMode.value
    completion := some f.completion.value
    xUnits := some f.xUnits.value
    yUnits := some f.yUnits.value
    bandwidthMaximum := some f.bandwidthMaximum.value
    bandwidthMinimum := some f.bandwidthMinimum.value }

/-- The fields, read back. The last text has the newline still. -/
theorem fields_eq {s : Bytes} (hs : pyFloat s = .ok f.bandwidthMinimum.value) :
    fields ((f.scaled.init ++ f.scaled.yReference.text :: f.middle).map Subtype.val ++ [s]) =
      .ok (f.dict, []) := by
  have hscaled := f.scaled.scaledFields_eq f.scaled.yReference.convert_text
    (f.middle.map Subtype.val ++ [s])
  simp only [middle, List.map_append, List.map_cons, List.map_nil, List.cons_append,
    List.nil_append, List.append_assoc] at hscaled ⊢
  rw [fields, bind_of_ok hscaled, pop_convert f.coupling f.coupling.convert_text,
    pop_convert f.xDisplayRange f.xDisplayRange.convert_text,
    pop_convert f.xDisplayOrigin f.xDisplayOrigin.convert_text,
    pop_convert f.yDisplayRange f.yDisplayRange.convert_text,
    pop_convert f.yDisplayOrigin f.yDisplayOrigin.convert_text,
    pop_convert f.date f.date.convert_text, pop_convert f.time f.time.convert_text,
    pop_convert f.frameModel f.frameModel.convert_text,
    pop_convert f.acquisitionMode f.acquisitionMode.convert_text,
    pop_convert f.completion f.completion.convert_text,
    pop_convert f.xUnits f.xUnits.convert_text, pop_convert f.yUnits f.yUnits.convert_text,
    pop_convert f.bandwidthMaximum f.bandwidthMaximum.convert_text,
    pop_convert f.bandwidthMinimum hs]
  rfl

end Fields

end Keysight

namespace CommaSeparated

open Python FileM

/-! ## The two instruments -/

inductive Instrument where
  | keysight | agilent

namespace Instrument

def library : Instrument → Library
  | keysight => Keysight.library
  | agilent => Agilent.library

/-- The fields of the preamble of an instrument. -/
def Fields : Instrument → Type
  | keysight => Keysight.Fields
  | agilent => ScaledFields Agilent.formats Agilent.types

/-- The texts of the fields but the last. -/
def init : (i : Instrument) → i.Fields → List PlainText
  | keysight => fun (f : Keysight.Fields) => f.scaled.init ++ f.scaled.yReference.text :: f.middle
  | agilent => ScaledFields.init

/-- The text of the last field. -/
def last : (i : Instrument) → i.Fields → PlainText
  | keysight => fun (f : Keysight.Fields) => f.bandwidthMinimum.text
  | agilent => fun (f : ScaledFields _ _) => f.yReference.text

/-- The dictionary the fields denote. -/
def dict : (i : Instrument) → i.Fields → Preamble
  | keysight => Keysight.Fields.dict
  | agilent => ScaledFields.dict

variable (i : Instrument) (f : i.Fields)

/-- The preamble an instrument answers with. -/
def preambleText : Bytes := [comma].intercalate ((i.init f).map Subtype.val ++ [(i.last f).1])

/-- A preamble is one line. -/
theorem newline_not_mem_preambleText : newline ∉ i.preambleText f := by
  refine not_mem_intercalate (by decide) fun l hl => ?_
  rcases List.mem_append.1 hl with h | h
  · obtain ⟨s, -, rfl⟩ := List.mem_map.1 h
    exact s.2.2
  · rw [List.mem_singleton.1 h]
    exact (i.last f).2.2

/-- **A preamble, read back** from its line. -/
theorem preambleStringToDict_preambleText :
    preambleStringToDict i.library.fields (i.preambleText f ++ [newline]) = .ok (i.dict f) := by
  have hplain : ∀ l ∈ (i.init f).map Subtype.val ++ [(i.last f).1], comma ∉ l := by
    intro l hl
    rcases List.mem_append.1 hl with h | h
    · obtain ⟨s, -, rfl⟩ := List.mem_map.1 h
      exact s.2.1
    · rw [List.mem_singleton.1 h]
      exact (i.last f).2.1
  have hfields : i.library.fields ((i.init f).map Subtype.val ++ [(i.last f).1 ++ [newline]]) =
      .ok (i.dict f, []) := by
    cases i with
    | keysight =>
      refine Keysight.Fields.fields_eq f ?_
      rw [pyFloat_congr (strip_append_newline _)]
      exact (Keysight.Fields.bandwidthMinimum f).convert_text
    | agilent =>
      refine ScaledFields.scaledFields_eq f ?_ []
      rw [pyFloat_congr (strip_append_newline _)]
      exact (ScaledFields.yReference f).convert_text
  rw [preambleStringToDict, preambleText,
    splitOn_intercalate_append_singleton (by decide) hplain]
  simp only [bind, Except.bind, hfields]
  rfl

def formats : Instrument → Dict ℤ Bytes
  | keysight => Keysight.formats
  | agilent => Agilent.formats

def types : Instrument → Dict ℤ Bytes
  | keysight => Keysight.types
  | agilent => Agilent.types

/-- The fields both preambles begin with. -/
def scaled : (i : Instrument) → i.Fields → ScaledFields i.formats i.types
  | keysight => Keysight.Fields.scaled
  | agilent => id

end Instrument

/-! ## What the oscilloscope answers -/

/-- **One channel of a capture**: its preamble fields and its data block,
with the newline after it or without. -/
structure Trace (i : Instrument) where
  chan : ℕ
  fields : i.Fields
  points : ℕ
  digits : Bytes
  samples : Bytes
  trailing : Bytes
  word : (i.scaled fields).format.value = ascii "WORD"
  points_value : (i.scaled fields).points.value = points
  digits_length : 1 ≤ digits.length ∧ digits.length ≤ 9
  digits_isDigit : ∀ b ∈ digits, isDigit b = true
  digits_value : ofDecimal digits = 2 * points
  samples_length : samples.length = 2 * points
  trailing_eq : trailing = [] ∨ trailing = [newline]

namespace Trace

variable {i : Instrument} (t : Trace i)

/-- The name of the channel. -/
def name : Bytes := decimal t.chan

theorem pyInt_name : pyInt t.name = .ok (t.chan : ℤ) := pyInt_decimal t.chan

/-- The data block. -/
def dataBlock : Bytes :=
  ascii "#" ++ decimal t.digits.length ++ t.digits ++ t.samples ++ t.trailing

/-- The waveform the samples denote. -/
def axes : Axes :=
  ((List.range t.points).map fun j : ℕ =>
      j * (i.scaled t.fields).xIncrement.value + (i.scaled t.fields).xOrigin.value,
    (List.range t.points).map fun j =>
      wordLE t.samples j * (i.scaled t.fields).yIncrement.value + (i.scaled t.fields).yOrigin.value)

/-- The dictionary entry after the preambles. -/
def loaded : Channel where
  byteOrder := ascii "LSBFIRST"
  preamble := i.dict t.fields

/-- The dictionary entry at the end of the file. -/
def complete : Channel := { t.loaded with waveform := some t.axes }

/-- The samples convert to the waveform they denote. -/
theorem rawToScipyArray :
    rawToScipyArray scale t.samples (ascii "LSBFIRST") t.loaded.preamble = .ok t.axes := by
  have hword := t.word
  have hpoints := t.points_value
  cases i <;>
    exact rawToScipyArray_word scale t.samples_length (congrArg some hword) (congrArg some hpoints)
      rfl rfl rfl rfl

end Trace

/-! ## One section at a time -/

variable {i : Instrument} {lib : Library}

/-- The section of one preamble: it goes to the channel the counter
points at. -/
theorem forLines_preamble (t : Trace i) {st : ReaderState} (rest : Bytes)
    (horder : st.header.byteOrder = some (ascii "LSBFIRST"))
    (hchan : st.channels[st.preambleIdx]? = some t.name) :
    forLines (fileBody i.library) st (ascii "#preamble:" ++ [newline] ++
        (i.preambleText t.fields ++ [newline]) ++ rest) =
      forLines (fileBody i.library) { st with
        waveformData := st.waveformData.set t.chan t.loaded
        preambleIdx := st.preambleIdx + 1 } rest := by
  have htext : ascii "#preamble:" ++ [newline] ++ (i.preambleText t.fields ++ [newline]) ++ rest =
      ascii "#preamble:" ++ newline :: (i.preambleText t.fields ++ newline :: rest) := by simp
  have hitem : listItem st.channels st.preambleIdx = .ok t.name := by
    rw [listItem, hchan]
    rfl
  have hhead : headLine (ascii "#preamble:" ++ [newline]) st = .ok st := rfl
  have hread : readPreamble i.library st (i.preambleText t.fields ++ newline :: rest) =
      .ok ({ st with
        waveformData := st.waveformData.set t.chan t.loaded
        preambleIdx := st.preambleIdx + 1 }, rest) := by
    rw [readPreamble, bind_of_ok (lift_of_ok hitem),
      bind_of_ok (lift_of_ok t.pyInt_name), bind_of_ok (lift_of_ok (bound_of_eq horder)),
      bind_of_ok (readline_line (splitLine_line (i.newline_not_mem_preambleText t.fields))),
      bind_of_ok (lift_of_ok (i.preambleStringToDict_preambleText t.fields))]
    rfl
  rw [htext, forLines_yield (shrinks_fileBody _) (by decide)]
  rw [fileBody, bind_of_ok (lift_of_ok hhead), onMark_of_startsWith rfl, bind_of_ok hread,
    onMark_of_not_startsWith rfl]
  rfl

/-- The empty lines after a block are skipped. -/
theorem forLines_trailing (t : Trace i) (st : ReaderState) (rest : Bytes) :
    forLines (fileBody lib) st (t.trailing ++ newline :: rest) =
      forLines (fileBody lib) st rest := by
  have hempty : ∀ r, forLines (fileBody lib) st (newline :: r) = forLines (fileBody lib) st r :=
    fun r => forLines_yield (shrinks_fileBody lib) (List.not_mem_nil (a := newline)) rfl
  rcases t.trailing_eq with h | h <;> rw [h]
  · exact hempty rest
  · exact (hempty _).trans (hempty rest)

/-- **The section of one data block.** The byte count takes the reader
past the samples, and the counter names their channel. -/
theorem forLines_data (t : Trace i) {st : ReaderState} (rest : Bytes)
    (horder : st.header.byteOrder = some (ascii "LSBFIRST"))
    (hchan : st.channels[st.waveformIdx]? = some t.name)
    (hloaded : Dict.get? st.waveformData t.chan = some t.loaded) :
    forLines (fileBody lib) st (ascii "#waveform:" ++ [newline] ++ (t.dataBlock ++ [newline]) ++
        rest) =
      forLines (fileBody lib) { st with
        waveformData := st.waveformData.set t.chan t.complete
        waveformIdx := st.waveformIdx + 1 } rest := by
  have hcount : decimal t.digits.length = [digit t.digits.length] :=
    decimal_of_lt_ten (by have := t.digits_length; omega)
  have hdigits : pyInt t.digits = .ok ((2 * t.points : ℕ) : ℤ) := by
    rw [pyInt_of_isDigit (List.ne_nil_of_length_pos t.digits_length.1) t.digits_isDigit,
      t.digits_value]
  have htext : ascii "#waveform:" ++ [newline] ++ (t.dataBlock ++ [newline]) ++ rest =
      ascii "#waveform:" ++ newline :: (ascii "#" ++ (decimal t.digits.length ++
        (t.digits ++ (t.samples ++ (t.trailing ++ newline :: rest))))) := by
    simp [Trace.dataBlock]
  have hitem : listItem st.channels st.waveformIdx = .ok t.name := by
    rw [listItem, hchan]
    rfl
  have hhead : headLine (ascii "#waveform:" ++ [newline]) st = .ok st := rfl
  -- no line is looked for between the mark and the last sample
  have hread : readWaveform st (ascii "#" ++ (decimal t.digits.length ++
      (t.digits ++ (t.samples ++ (t.trailing ++ newline :: rest))))) =
      .ok ({ st with
        waveformData := st.waveformData.set t.chan t.complete
        waveformIdx := st.waveformIdx + 1 }, t.trailing ++ newline :: rest) := by
    have hmark : ((ascii "#").length : ℤ) = 1 := rfl
    rw [readWaveform, bind_of_ok (lift_of_ok hitem),
      bind_of_ok (lift_of_ok t.pyInt_name), bind_of_ok (read_append hmark),
      bind_of_ok (read_append (by rw [hcount]; rfl)), bind_of_ok (lift_of_ok (pyInt_decimal _)),
      bind_of_ok (read_append rfl), bind_of_ok (lift_of_ok hdigits),
      bind_of_ok (read_append (by rw [t.samples_length])),
      bind_of_ok (lift_of_ok (bound_of_eq horder)),
      bind_of_ok (lift_of_ok (Dict.getItem_of_get? hloaded)),
      bind_of_ok (lift_of_ok t.rawToScipyArray)]
    rfl
  have hbody : fileBody lib (ascii "#waveform:" ++ [newline]) st (ascii "#" ++
      (decimal t.digits.length ++ (t.digits ++ (t.samples ++ (t.trailing ++ newline :: rest))))) =
      .ok (.yield { st with
        waveformData := st.waveformData.set t.chan t.complete
        waveformIdx := st.waveformIdx + 1 }, t.trailing ++ newline :: rest) := by
    rw [fileBody, bind_of_ok (lift_of_ok hhead), onMark_of_not_startsWith rfl, pure_bind,
      onMark_of_startsWith rfl, bind_of_ok hread]
    rfl
  rw [htext, forLines_yield (shrinks_fileBody lib) (by decide) hbody, forLines_trailing]

/-! ## The whole file -/

/-- A header line that is not the list of channels. -/
theorem headLine_of_headerLine {line : Bytes} {st : ReaderState} {h : Header}
    (hmark : startsWith (ascii "#channel:") line = false)
    (hline : headerLine line st.header = .ok h) :
    headLine line st = .ok { st with header := h } := by
  rw [headLine, onMark_of_not_startsWith hmark, pure_bind, hline]
  rfl

/-- The list of channels, read back from its line. -/
theorem headLine_channels {names : List Bytes} (hne : names ≠ [])
    (hdigit : ∀ name ∈ names, ∀ b ∈ name, isDigit b = true) (st : ReaderState) :
    headLine (ascii "#channel:" ++ [comma].intercalate names ++ [newline]) st =
      .ok { st with channels := names } := by
  -- the list holds digits and commas only: no colon, and nothing to strip
  have hplain : ∀ {c : UInt8}, isDigit c = false → c ≠ comma → c ∉ [comma].intercalate names :=
    fun hc hne => not_mem_intercalate (by simpa using hne) fun name hname =>
      not_mem_of_isDigit (hdigit name hname) hc
  have hstrip : strip ([comma].intercalate names ++ [newline]) = [comma].intercalate names := by
    rw [strip_append_newline]
    refine stripWhere_eq_self fun b hb => ?_
    by_contra hspace
    rw [Bool.not_eq_false] at hspace
    refine hplain ?_ ?_ hb
    · by_contra hd
      rw [Bool.not_eq_false] at hd
      exact Bool.noConfusion ((isSpace_of_isDigit hd).symm.trans hspace)
    · rintro rfl
      exact absurd hspace (by decide)
  have hnl : colon ∉ [comma].intercalate names ++ [newline] := by
    rw [List.mem_append, not_or]
    exact ⟨hplain (by decide) (by decide), by decide⟩
  have hitems : (ascii "#channel:" ++ [comma].intercalate names ++ [newline]).splitOn colon =
      [ascii "#channel", [comma].intercalate names ++ [newline]] := by
    rw [List.append_assoc, show ascii "#channel:" ++ ([comma].intercalate names ++ [newline]) =
      ascii "#channel" ++ colon :: ([comma].intercalate names ++ [newline]) from rfl,
      List.splitOn_append_cons_self_of_not_mem (by decide), List.splitOn_eq_singleton hnl]
  have hsplit : ([comma].intercalate names).splitOn comma = names :=
    List.splitOn_intercalate comma (fun name hname =>
      not_mem_of_isDigit (hdigit name hname) (by decide)) hne
  simp only [headLine, hitems]
  rw [onMark_of_startsWith rfl]
  simp only [listItem, List.getElem?_cons_succ, List.getElem?_cons_zero, bind, Except.bind, pure,
    Except.pure, hstrip, hsplit]
  rw [headerLine_of_not_startsWith _ rfl rfl rfl]

/-- The header lines bind the channels with the rest of the header. -/
theorem forLines_header {names : List Bytes} (hne : names ≠ [])
    (hdigit : ∀ name ∈ names, ∀ b ∈ name, isDigit b = true) (timestamp : LocalTime)
    (rest : Bytes) :
    forLines (fileBody lib) {} ((headerMarks ([comma].intercalate names) timestamp).flatMap
        (· ++ [newline]) ++ rest) =
      forLines (fileBody lib) { header := writtenHeader timestamp, channels := names } rest := by
  have hline : newline ∉ [comma].intercalate names := not_mem_intercalate (by decide)
    fun name hname => not_mem_of_isDigit (hdigit name hname) (by decide)
  have htype : ∀ st, headLine (ascii "#type:RAW" ++ [newline]) st = .ok st := fun st => rfl
  have hdate := fun st : ReaderState => headLine_of_headerLine rfl
    (headerLine_date st.header (not_mem_strftimeDate timestamp).1)
  have htime := fun st : ReaderState => headLine_of_headerLine rfl
    (headerLine_time st.header (zeroPadded_isDigit 2 timestamp.hour)
      (zeroPadded_isDigit 2 timestamp.minute) (zeroPadded_isDigit 2 timestamp.second))
  have horder : ∀ st : ReaderState, headLine (ascii "#byteorder:LSBFIRST" ++ [newline]) st =
      .ok { st with header := { st.header with byteOrder := some (ascii "LSBFIRST") } } :=
    fun st => rfl
  have hfold : (headerMarks ([comma].intercalate names) timestamp).foldlM
      (fun st l => headLine (l ++ [newline]) st) {} =
      .ok { header := writtenHeader timestamp, channels := names } := by
    simp only [headerMarks, List.foldlM_cons, htype, headLine_channels hne hdigit, hdate,
      strftimeTime, htime, horder, bind, Except.bind]
    refine congrArg Except.ok ?_
    simp only [writtenHeader, strftimeTime]
    rw [List.append_assoc, List.append_assoc, List.append_assoc]
    rfl
  refine forLines_lines (shrinks_fileBody lib) (newline_not_mem_headerMarks hline timestamp) ?_
    hfold
  intro l hl st st' r h
  have hmark : startsWith (ascii "#preamble:") (l ++ [newline]) = false ∧
      startsWith (ascii "#waveform:") (l ++ [newline]) = false := by
    simp only [headerMarks, List.mem_cons, List.not_mem_nil, or_false] at hl
    rcases hl with rfl | rfl | rfl | rfl | rfl <;> exact ⟨rfl, rfl⟩
  rw [fileBody, bind_of_ok (lift_of_ok h), onMark_of_not_startsWith hmark.1, pure_bind,
    onMark_of_not_startsWith hmark.2]
  rfl

section File

variable {timestamp : LocalTime}

/-- The preambles of the remaining channels, the counter at the first of
them. -/
theorem forLines_preambles (rest : Bytes) :
    ∀ (traces : List (Trace i)) (before : List Bytes) (st : ReaderState),
      st.header = writtenHeader timestamp → st.preambleIdx = before.length →
      st.channels = before ++ traces.map Trace.name →
      forLines (fileBody i.library) st (traces.flatMap (fun t => ascii "#preamble:" ++ [newline] ++
          (i.preambleText t.fields ++ [newline])) ++ rest) =
        forLines (fileBody i.library) { st with
          waveformData := traces.foldl
            (fun wf t => wf.set (t.chan : ℤ) t.loaded) st.waveformData
          preambleIdx := before.length + traces.length } rest := by
  intro traces
  induction traces with
  | nil =>
    intro before st _ hidx _
    rw [List.flatMap_nil, List.nil_append, List.foldl_nil, List.length_nil, Nat.add_zero, ← hidx]
  | cons t traces ih =>
    intro before st hst hidx hchan
    have horder : st.header.byteOrder = some (ascii "LSBFIRST") := by rw [hst]; rfl
    have hitem : st.channels[st.preambleIdx]? = some t.name := by
      rw [hchan, hidx]
      simp
    have hlen : (before ++ [t.name]).length + traces.length =
        before.length + (t :: traces).length := by
      simp only [List.length_append, List.length_cons, List.length_nil]
      omega
    have hrun := ih (before ++ [t.name]) { st with
      waveformData := st.waveformData.set t.chan t.loaded
      preambleIdx := st.preambleIdx + 1 } hst (by simp [hidx]) (by simp [hchan])
    rw [List.flatMap_cons, List.append_assoc, forLines_preamble t _ horder hitem, hrun, hlen]
    rfl

/-- **The data blocks of the remaining channels**, the counter at the
first of them: each lands in the entry its preamble made. -/
theorem forLines_blocks (rest : Bytes) :
    ∀ (traces : List (Trace i)) (before : List Bytes) (st : ReaderState),
      st.header = writtenHeader timestamp → st.waveformIdx = before.length →
      st.channels = before ++ traces.map Trace.name → (traces.map (·.chan)).Nodup →
      (∀ t ∈ traces, Dict.get? st.waveformData t.chan = some t.loaded) →
      forLines (fileBody lib) st (traces.flatMap (fun t => ascii "#waveform:" ++ [newline] ++
          (t.dataBlock ++ [newline])) ++ rest) =
        forLines (fileBody lib) { st with
          waveformData := traces.foldl
            (fun wf t => wf.set (t.chan : ℤ) t.complete) st.waveformData
          waveformIdx := before.length + traces.length } rest := by
  intro traces
  induction traces with
  | nil =>
    intro before st _ hidx _ _ _
    rw [List.flatMap_nil, List.nil_append, List.foldl_nil, List.length_nil, Nat.add_zero, ← hidx]
  | cons t traces ih =>
    intro before st hst hidx hchan hnd hloaded
    rw [List.map_cons, List.nodup_cons] at hnd
    have horder : st.header.byteOrder = some (ascii "LSBFIRST") := by rw [hst]; rfl
    have hitem : st.channels[st.waveformIdx]? = some t.name := by
      rw [hchan, hidx]
      simp
    have hrest : ∀ t' ∈ traces,
        Dict.get? (st.waveformData.set t.chan t.complete) t'.chan = some t'.loaded := by
      intro t' ht'
      have hne : (t.chan : ℤ) ≠ t'.chan := fun heq =>
        hnd.1 (List.mem_map.2 ⟨t', ht', (Int.natCast_inj.1 heq).symm⟩)
      exact (Dict.get?_set_of_ne _ hne _).trans (hloaded t' (by simp [ht']))
    have hlen : (before ++ [t.name]).length + traces.length =
        before.length + (t :: traces).length := by
      simp only [List.length_append, List.length_cons, List.length_nil]
      omega
    have hrun := ih (before ++ [t.name]) { st with
      waveformData := st.waveformData.set t.chan t.complete
      waveformIdx := st.waveformIdx + 1 } hst (by simp [hidx]) (by simp [hchan]) hnd.2 hrest
    rw [List.flatMap_cons, List.append_assoc,
      forLines_data t _ horder hitem (hloaded t (by simp)), hrun, hlen]
    rfl

end File

/-- **A written capture is read back**, by either library. Whatever the
preambles and the samples are, and in whatever order the channels were
asked for, the file gives every channel its own preamble and the waveform
its own block denotes. -/
theorem fileToWaveform_getWaveforms_instrument (i : Instrument) (traces : List (Trace i))
    (hne : traces ≠ []) (hdistinct : (traces.map (·.chan)).Nodup) (scope : Scope)
    (hscope : ∀ t ∈ traces,
      scope.ask (sourceCommand t.name) (ascii ":WAVeform:PREamble?") = i.preambleText t.fields ∧
      scope.askRaw (sourceCommand t.name) (ascii ":WAVeform:DATA?") = t.dataBlock)
    (timestamp : LocalTime) :
    ∃ wf, fileToWaveform i.library (getWaveforms i.library scope
        ([comma].intercalate (traces.map Trace.name)) timestamp) = .ok (some wf) ∧
      (∀ c, (Dict.get? wf c).isSome = true ↔ ∃ t ∈ traces, c = (t.chan : ℤ)) ∧
      ∀ t ∈ traces, ∃ ch, Dict.get? wf (t.chan : ℤ) = some ch ∧
        ch.preamble = i.dict t.fields ∧ ch.waveform = some t.axes := by
  have hnames : traces.map Trace.name ≠ [] := by simpa using hne
  have hdigit : ∀ name ∈ traces.map Trace.name, ∀ b ∈ name, isDigit b = true := by
    intro name hname
    obtain ⟨t, -, rfl⟩ := List.mem_map.1 hname
    exact decimal_isDigit t.chan
  have hsplit : ([comma].intercalate (traces.map Trace.name)).splitOn comma =
      traces.map Trace.name :=
    List.splitOn_intercalate comma (fun name hname =>
      not_mem_of_isDigit (hdigit name hname) (by decide)) hnames
  have hnd : (traces.map fun t => (t.chan : ℤ)).Nodup := by
    have := hdistinct.map (Nat.cast_injective (R := ℤ))
    rwa [List.map_map] at this
  -- the writer asks for all the preambles before the first waveform
  have hfile : getWaveforms i.library scope ([comma].intercalate (traces.map Trace.name))
      timestamp = fileHeader i.library.magic ([comma].intercalate (traces.map Trace.name))
        timestamp ++ (traces.flatMap (fun t => ascii "#preamble:" ++ [newline] ++
            (i.preambleText t.fields ++ [newline])) ++
          (traces.flatMap (fun t => ascii "#waveform:" ++ [newline] ++
            (t.dataBlock ++ [newline])) ++ [])) := by
    simp only [getWaveforms, hsplit, List.flatMap_map, List.append_nil, List.append_assoc]
    refine congrArg _ (congrArg₂ _ ?_ ?_) <;>
      exact List.flatMap_congr fun t ht => by simp only [hscope t ht]
  have hmagic : newline ∉ ascii i.library.magic ∧
      strip (ascii i.library.magic) = ascii i.library.magic := by
    cases i <;> decide
  refine ⟨traces.foldl (fun wf t => wf.set (t.chan : ℤ) t.complete)
    (traces.foldl (fun wf t => wf.set (t.chan : ℤ) t.loaded) []), ?_, fun c => ?_,
    fun t ht => ⟨t.complete, Dict.get?_foldl_set hnd t ht, rfl, rfl⟩⟩
  · rw [hfile, fileToWaveform, checkMagic_fileHeader timestamp _ hmagic.1 hmagic.2]
    simp only [bind, Except.bind, if_true]
    -- header, preambles, blocks: each hands the rest of the file on
    rw [forLines_header hnames hdigit, forLines_preambles _ _ [] _ rfl rfl rfl,
      forLines_blocks _ _ [] _ rfl rfl rfl hdistinct fun t ht => Dict.get?_foldl_set hnd t ht,
      forLines_nil]
    rfl
  · exact Dict.isSome_get?_replaced hnd c

/-- An Agilent preamble of one point. -/
def onePointFields : ScaledFields Agilent.formats Agilent.types where
  format := ⟨⟨ascii "+1", by decide⟩, ascii "WORD", by decide +kernel⟩
  type := ⟨⟨ascii "+2", by decide⟩, ascii "AVERAGE", by decide +kernel⟩
  points := ⟨⟨ascii "+1", by decide⟩, 1, by decide +kernel⟩
  count := ⟨⟨ascii "+16", by decide⟩, 16, by decide +kernel⟩
  xIncrement := ⟨⟨ascii "+2.5E-2", by decide⟩, 1 / 40, by decide +kernel⟩
  xOrigin := ⟨⟨ascii "-5E-1", by decide⟩, -1 / 2, by decide +kernel⟩
  xReference := ⟨⟨ascii "0", by decide⟩, 0, by decide +kernel⟩
  yIncrement := ⟨⟨ascii "2", by decide⟩, 2, by decide +kernel⟩
  yOrigin := ⟨⟨ascii "+1.0", by decide⟩, 1, by decide +kernel⟩
  yReference := ⟨⟨ascii "0.0", by decide⟩, 0, by decide +kernel⟩

/-- One point on a channel, with the newline after the block or without. -/
def onePoint (chan : ℕ) (low high : UInt8) (trailing : Bytes)
    (h : trailing = [] ∨ trailing = [newline]) : Trace .agilent where
  chan := chan
  fields := onePointFields
  points := 1
  digits := ascii "02"
  samples := [low, high]
  trailing := trailing
  word := rfl
  points_value := rfl
  digits_length := by decide
  digits_isDigit := by decide +kernel
  digits_value := by decide +kernel
  samples_length := rfl
  trailing_eq := h

/-- Channel three and then channel one, the sample bytes a newline and the
first byte of a mark. -/
def twoChannels : List (Trace .agilent) :=
  [onePoint 3 10 35 [] (Or.inl rfl), onePoint 1 35 10 [newline] (Or.inr rfl)]

/-- An oscilloscope with these two channels. -/
def twoChannelsScope : Scope where
  ask _ _ := Instrument.agilent.preambleText onePointFields
  askRaw source _ :=
    if source = sourceCommand (ascii "3") then (onePoint 3 10 35 [] (Or.inl rfl)).dataBlock
    else (onePoint 1 35 10 [newline] (Or.inr rfl)).dataBlock

theorem fileToWaveform_getWaveforms_instrument_twoChannels :
    ∃ wf, fileToWaveform Instrument.agilent.library (getWaveforms Instrument.agilent.library
        twoChannelsScope ([comma].intercalate (twoChannels.map Trace.name))
        ⟨21, 0, 2016, 11, 3, 38⟩) = .ok (some wf) ∧
      (∀ c, (Dict.get? wf c).isSome = true ↔ ∃ t ∈ twoChannels, c = (t.chan : ℤ)) ∧
      ∀ t ∈ twoChannels, ∃ ch, Dict.get? wf (t.chan : ℤ) = some ch ∧
        ch.preamble = Instrument.agilent.dict t.fields ∧ ch.waveform = some t.axes :=
  fileToWaveform_getWaveforms_instrument .agilent twoChannels (by simp [twoChannels])
    (by decide) twoChannelsScope
    (by
      intro t ht
      rcases List.mem_cons.1 ht with rfl | ht
      · exact ⟨rfl, by decide +kernel⟩
      · obtain rfl := List.mem_singleton.1 ht
        exact ⟨rfl, by decide +kernel⟩)
    ⟨21, 0, 2016, 11, 3, 38⟩

end CommaSeparated

end Capture

end WrCalibration
