import WrCalibration.Capture.LeCroy8254

/-!
# A LeCroy capture, written and read back

The scanner sees a line at a time, so the argument is that every line it
sees is one `get_waveforms` meant as a line. A preamble is consumed up to
its own end mark and a data block by its byte count, so that neither the
samples nor the texts are ever scanned.
-/

namespace WrCalibration

namespace Capture

namespace LeCroy8254

open Python FileM

/-! ## The loops are total -/

theorem shrinks_preambleBody (dateInFile timeInFile line : Bytes) (st : ParseState) :
    Shrinks (preambleBody dateInFile timeInFile line st) :=
  (Shrinks.pure _).ite ((Shrinks.lift _).bind fun _ => Shrinks.pure _)

theorem shrinks_getPreambleFromFile (dateInFile timeInFile : Bytes) :
    Shrinks (getPreambleFromFile dateInFile timeInFile) :=
  (Shrinks.forLines (shrinks_preambleBody dateInFile timeInFile) _).bind fun _ => Shrinks.pure _

theorem shrinks_readPreamble (st : ReaderState) : Shrinks (readPreamble st) :=
  Shrinks.readline.bind fun _ => (Shrinks.lift _).bind fun _ => (Shrinks.lift _).bind fun _ =>
    (Shrinks.lift _).bind fun _ => (Shrinks.lift _).bind fun _ => (Shrinks.lift _).bind fun _ =>
      (shrinks_getPreambleFromFile _ _).bind fun _ => Shrinks.pure _

theorem shrinks_readWaveform (st : ReaderState) : Shrinks (readWaveform st) :=
  (Shrinks.read _).bind fun _ => (Shrinks.lift _).bind fun _ => (Shrinks.lift _).bind fun _ =>
    (Shrinks.read _).bind fun _ => (Shrinks.lift _).bind fun _ => (Shrinks.read _).bind fun _ =>
      (Shrinks.lift _).bind fun _ => (Shrinks.read _).bind fun _ => (Shrinks.lift _).bind fun _ =>
        (Shrinks.lift _).bind fun _ => (Shrinks.lift _).bind fun _ =>
          Shrinks.readline.bind fun _ => Shrinks.pure _

theorem shrinks_fileBody (line : Bytes) (st : ReaderState) : Shrinks (fileBody line st) :=
  (Shrinks.lift _).bind fun _ =>
    ((shrinks_readPreamble _).ite (Shrinks.pure _)).bind fun _ =>
      ((shrinks_readWaveform _).ite (Shrinks.pure _)).bind fun _ => Shrinks.pure _

/-! ## One line of a preamble -/

variable {dateInFile timeInFile : Bytes}

/-- What the conversions of a key take. -/
def Key.Accepts (k : Key) (v : Bytes) : Prop :=
  match k with
  | .waveArrayCount | .sweepsPerAcq => ∃ n, pyInt v = .ok n
  | .horizInterval | .horizOffset | .firstPoint | .verticalGain | .verticalOffset | .pixelOffset
  | .maxValue | .minValue => ∃ q, pyFloat v = .ok q
  | .timebase => ∃ q, Dict.get? LeCroy8254.timebase (strip v) = some q
  | .commType | .vertCoupling | .instrumentName | .recordType | .horunit | .vertunit => True

/-- A value its key takes is stored. -/
theorem setKey_of_accepts {k : Key} {v : Bytes} (h : k.Accepts v) (st : ParseState) :
    ∃ st', st.setKey k v = .ok st' := by
  cases k
  case commType | vertCoupling | instrumentName | recordType | horunit | vertunit =>
    exact ⟨_, rfl⟩
  case timebase =>
    obtain ⟨q, hq⟩ := h
    exact ⟨_, by simp only [ParseState.setKey, Dict.getItem_of_get? hq]; rfl⟩
  all_goals
    obtain ⟨a, ha⟩ := h
    exact ⟨_, by simp only [ParseState.setKey, ha]; rfl⟩

/-- Only the stripped value matters. -/
theorem setKey_congr {v w : Bytes} (h : strip v = strip w) (st : ParseState) (k : Key) :
    st.setKey k v = st.setKey k w := by
  cases k <;> simp only [ParseState.setKey, h, pyInt_congr h, pyFloat_congr h]

theorem lineKey_append_newline (l : Bytes) : lineKey (l ++ [newline]) = lineKey l := by
  have h := getElem?_splitOn_append_newline (c := colon) (by decide) l 0
  have hhead : ∀ xs : List Bytes, strip (xs.headD []) = (xs[0]?.map strip).getD [] := by
    intro xs
    cases xs <;> rfl
  rw [lineKey, lineKey, hhead, hhead, h]

/-- The newline at the end of a line does not matter. -/
theorem preambleLine_append_newline (st : ParseState) (l : Bytes) :
    preambleLine dateInFile timeInFile st (l ++ [newline]) =
      preambleLine dateInFile timeInFile st l := by
  have h := getElem?_splitOn_append_newline (c := colon) (by decide) l 1
  unfold preambleLine
  rw [lineKey_append_newline, lineValue, lineValue]
  cases lineKey l with
  | none => rfl
  | some k =>
    rcases hv : (l.splitOn colon)[1]? with _ | v
    · rw [hv] at h
      rw [Option.map_eq_none_iff.1 h]
    · rw [hv] at h
      obtain ⟨w, hw, hstrip⟩ := Option.map_eq_some_iff.1 h
      simp only [hw, setKey_congr hstrip]

/-- **A line of a preamble**: one line, not the end mark, and if it names
a key that is read, with a value the key takes. -/
structure Readable (l : Bytes) : Prop where
  line : newline ∉ l
  mark : strip l ≠ ascii "#preamble_end:"
  value : ∀ k, lineKey l = some k → ∃ v, lineValue l = some v ∧ k.Accepts v

theorem preambleLine_of_readable (dateInFile timeInFile : Bytes) {l : Bytes} (h : Readable l)
    (st : ParseState) : ∃ st', preambleLine dateInFile timeInFile st l = .ok st' := by
  unfold preambleLine
  cases hk : lineKey l with
  | none => exact ⟨_, rfl⟩
  | some k =>
    obtain ⟨v, hv, hacc⟩ := h.value k hk
    obtain ⟨st', hset⟩ := setKey_of_accepts hacc st
    exact ⟨st'.setConstants dateInFile timeInFile, by simp only [hv, hset]; rfl⟩

/-- A line with a key and a value it takes. -/
theorem Readable.of_key {l v : Bytes} {k : Key} (hline : newline ∉ l)
    (hmark : strip l ≠ ascii "#preamble_end:") (hk : lineKey l = some k)
    (hv : lineValue l = some v) (hacc : k.Accepts v) : Readable l where
  line := hline
  mark := hmark
  value g hg := by
    rw [hk] at hg
    exact ⟨v, hv, Option.some.inj hg ▸ hacc⟩

/-! ## What a preamble leaves in the dictionary -/

/-- The value text of the last line with a key. -/
def lastValue (k : Key) (lines : List Bytes) : Option Bytes :=
  ((lines.filter fun l => lineKey l = some k).getLast?).bind lineValue

/-- **An entry that one key determines**: a line with the key stores the
converted value, any other line leaves the entry as it is. -/
structure Tracks {α : Type} (entry : ParseState → Option α) (k : Key) (convert : Bytes → Py α) :
    Prop where
  constants : ∀ (st : ParseState) d t, entry (st.setConstants d t) = entry st
  stored : ∀ (st st' : ParseState) v, st.setKey k v = .ok st' →
    ∃ a, convert v = .ok a ∧ entry st' = some a
  kept : ∀ (st st' : ParseState) g v, g ≠ k → st.setKey g v = .ok st' → entry st' = entry st

/-- The entry after all lines is the last value of its key. -/
theorem Tracks.foldlM {α : Type} {entry : ParseState → Option α} {k : Key}
    {convert : Bytes → Py α} (tr : Tracks entry k convert) :
    ∀ (lines : List Bytes) {st st' : ParseState} {v : Bytes} {a : α},
      lines.foldlM (preambleLine dateInFile timeInFile) st = .ok st' →
      lastValue k lines = some v → convert v = .ok a → entry st' = some a := by
  intro lines
  -- from the last line backwards: what counts is the last value of the key
  induction lines using List.reverseRecOn with
  | nil => intro _ _ _ _ _ h; cases h
  | append_singleton lines l ih =>
    intro st st' v a hrun hlast hconv
    rw [List.foldlM_append] at hrun
    rcases hst : lines.foldlM (preambleLine dateInFile timeInFile) st with e | st₁
    · rw [hst] at hrun
      cases hrun
    · rw [hst] at hrun
      have hline : preambleLine dateInFile timeInFile st₁ l = .ok st' := by
        change (preambleLine dateInFile timeInFile st₁ l >>= pure) = _ at hrun
        rwa [bind_pure] at hrun
      rw [lastValue, List.filter_append] at hlast
      unfold preambleLine at hline
      rcases hk : lineKey l with _ | g
      · simp only [hk, bind, Except.bind, pure, Except.pure, Except.ok.injEq] at hline
        rw [List.filter_cons_of_neg (by simp [hk]), List.filter_nil, List.append_nil] at hlast
        rw [← hline, tr.constants]
        exact ih hst hlast hconv
      · rcases hv : lineValue l with _ | w
        · simp only [hk, hv] at hline
          cases hline
        rcases hset : st₁.setKey g w with e | st₂
        · simp only [hk, hv, hset] at hline
          cases hline
        simp only [hk, hv, hset, bind, Except.bind, pure, Except.pure, Except.ok.injEq] at hline
        rw [← hline, tr.constants]
        by_cases hg : g = k
        · subst hg
          rw [List.filter_cons_of_pos (by simp [hk]), List.filter_nil, List.getLast?_append,
            List.getLast?_singleton, Option.some_or, Option.bind_some, hv] at hlast
          obtain ⟨b, hb, hentry⟩ := tr.stored _ _ _ hset
          rw [Option.some.inj hlast, hconv] at hb
          rw [hentry, Except.ok.inj hb]
        · rw [List.filter_cons_of_neg (by simp [hk, hg]), List.filter_nil,
            List.append_nil] at hlast
          rw [tr.kept _ _ _ _ hg hset]
          exact ih hst hlast hconv

/-- **The frame of a line**: of the entries a waveform is scaled with, a
key changes its own only. The grid values change none of them. -/
theorem setKey_frame {st st' : ParseState} {g : Key} {v : Bytes} (h : st.setKey g v = .ok st') :
    (g ≠ .commType → st'.preamble.format = st.preamble.format) ∧
    (g ≠ .waveArrayCount → st'.preamble.points = st.preamble.points) ∧
    (g ≠ .verticalGain → st'.preamble.yIncrement = st.preamble.yIncrement) ∧
    (g ≠ .verticalOffset → st'.preamble.yOrigin = st.preamble.yOrigin) ∧
    (g ≠ .horizInterval → st'.preamble.xIncrement = st.preamble.xIncrement) ∧
    (g ≠ .horizOffset → st'.preamble.xOrigin = st.preamble.xOrigin) := by
  -- the grid is set only when both extremes are known, and changes nothing else
  have hgrid : ∀ s : ParseState, ∃ a b, s.setGrid = { s with
      preamble := { s.preamble with yDisplayRange := a, yDisplayOrigin := b } } := by
    intro s
    unfold ParseState.setGrid
    split
    · exact ⟨_, _, rfl⟩
    · exact ⟨s.preamble.yDisplayRange, s.preamble.yDisplayOrigin, rfl⟩
  cases g
  -- the two keys that set the grid, the keys that convert nothing, and the rest
  case maxValue | minValue =>
    simp only [ParseState.setKey, bind, Except.bind] at h
    split at h
    · cases h
    · obtain ⟨a, b, hab⟩ := hgrid _
      rw [hab] at h
      rw [← Except.ok.inj h]
      simp
  case commType | vertCoupling | instrumentName | recordType | horunit | vertunit =>
    rw [← Except.ok.inj h]
    simp
  all_goals
    simp only [ParseState.setKey, bind, Except.bind] at h
    split at h
    · cases h
    · rw [← Except.ok.inj h]
      simp

theorem tracks_format :
    Tracks (·.preamble.format) .commType fun v => pure (upper (strip v)) where
  constants _ _ _ := rfl
  stored st st' v h := ⟨_, rfl, by rw [← Except.ok.inj h]⟩
  kept _ _ _ _ hg h := (setKey_frame h).1 hg

/-- A key whose value one conversion stores. -/
theorem stored_of_convert {α : Type} {convert : Bytes → Py α} {k : Key}
    {entry : ParseState → Option α} {put : ParseState → α → ParseState}
    (hset : ∀ st v, st.setKey k v = do pure (put st (← convert v)))
    (hput : ∀ st a, entry (put st a) = some a) (st st' : ParseState) (v : Bytes)
    (h : st.setKey k v = .ok st') : ∃ a, convert v = .ok a ∧ entry st' = some a := by
  rw [hset] at h
  rcases hc : convert v with e | a
  · rw [hc] at h
    cases h
  · rw [hc] at h
    exact ⟨a, rfl, by rw [← Except.ok.inj h, hput]⟩

theorem tracks_points : Tracks (·.preamble.points) .waveArrayCount pyInt where
  constants _ _ _ := rfl
  stored := stored_of_convert (fun _ _ => rfl) fun _ _ => rfl
  kept _ _ _ _ hg h := (setKey_frame h).2.1 hg

theorem tracks_yIncrement : Tracks (·.preamble.yIncrement) .verticalGain pyFloat where
  constants _ _ _ := rfl
  stored := stored_of_convert (fun _ _ => rfl) fun _ _ => rfl
  kept _ _ _ _ hg h := (setKey_frame h).2.2.1 hg

theorem tracks_yOrigin : Tracks (·.preamble.yOrigin) .verticalOffset pyFloat where
  constants _ _ _ := rfl
  stored := stored_of_convert (fun _ _ => rfl) fun _ _ => rfl
  kept _ _ _ _ hg h := (setKey_frame h).2.2.2.1 hg

theorem tracks_xIncrement : Tracks (·.preamble.xIncrement) .horizInterval pyFloat where
  constants _ _ _ := rfl
  stored := stored_of_convert (fun _ _ => rfl) fun _ _ => rfl
  kept _ _ _ _ hg h := (setKey_frame h).2.2.2.2.1 hg

theorem tracks_xOrigin : Tracks (·.preamble.xOrigin) .horizOffset pyFloat where
  constants _ _ _ := rfl
  stored := stored_of_convert (fun _ _ => rfl) fun _ _ => rfl
  kept _ _ _ _ hg h := (setKey_frame h).2.2.2.2.2 hg

/-! ## What the oscilloscope answers -/

/-- **One channel of a capture**: the preamble text with the entries it
announces, the lines of the descriptor block, and the data block. -/
structure Trace where
  chan : ℕ
  /-- What follows `C<chan>` on the first line of the preamble. -/
  echo : Bytes
  lines : List Bytes
  points : ℕ
  gain : ℚ
  offset : ℚ
  interval : ℚ
  origin : ℚ
  descriptor : List Bytes
  digits : Bytes
  samples : Bytes
  chan_lt : chan < 10
  echo_line : newline ∉ echo
  readable : ∀ l ∈ lines, Readable l
  commType : ∃ v, lastValue .commType lines = some v ∧ upper (strip v) = ascii "WORD"
  waveArrayCount : ∃ v, lastValue .waveArrayCount lines = some v ∧ pyInt v = .ok (points : ℤ)
  verticalGain : ∃ v, lastValue .verticalGain lines = some v ∧ pyFloat v = .ok gain
  verticalOffset : ∃ v, lastValue .verticalOffset lines = some v ∧ pyFloat v = .ok offset
  horizInterval : ∃ v, lastValue .horizInterval lines = some v ∧ pyFloat v = .ok interval
  horizOffset : ∃ v, lastValue .horizOffset lines = some v ∧ pyFloat v = .ok origin
  descriptor_lines : ∀ l ∈ descriptor, newline ∉ l ∧ l.head? ≠ some 35
  digits_length : 1 ≤ digits.length ∧ digits.length ≤ 9
  digits_isDigit : ∀ b ∈ digits, isDigit b = true
  digits_value : ofDecimal digits = 2 * points
  samples_length : samples.length = 2 * points

namespace Trace

variable (t : Trace)

/-- The name of the channel in the queries and in the header. -/
def name : Bytes := decimal t.chan

/-- The answer to the preamble query. -/
def inspect : Bytes := [newline].intercalate ((ascii "C" ++ t.name ++ t.echo) :: t.lines)

/-- The descriptor block, every line with its newline. -/
def descriptorBlock : Bytes := t.descriptor.flatMap (· ++ [newline])

/-- The data block. -/
def dataBlock : Bytes :=
  ascii "C" ++ t.name ++ ascii ":WF DAT1,#" ++ decimal t.digits.length ++ t.digits ++ t.samples ++
    [newline]

/-- The waveform the samples denote. -/
def axes : Axes :=
  ((List.range t.points).map fun j : ℕ => j * t.interval + t.origin,
    (List.range t.points).map fun j => wordLE t.samples j * t.gain - t.offset)

/-- The preamble that is read for the channel. -/
def preamble (dateInFile timeInFile : Bytes) : Preamble :=
  match t.lines.foldlM (preambleLine dateInFile timeInFile) {} with
  | .ok st => st.preamble
  | .error _ => {}

end Trace

/-! ## One section at a time -/

section Sections

variable {t : Trace} {d tm order : Bytes}

/-- The lines of a trace fold without an exception. -/
theorem Trace.foldlM_lines (t : Trace) (d tm : Bytes) :
    ∃ st, t.lines.foldlM (preambleLine d tm) {} = .ok st ∧ t.preamble d tm = st.preamble := by
  have key : ∀ (ls : List Bytes) (st : ParseState), (∀ l ∈ ls, Readable l) →
      ∃ st', ls.foldlM (preambleLine d tm) st = .ok st' := by
    intro ls
    induction ls with
    | nil => exact fun st _ => ⟨st, rfl⟩
    | cons l ls ih =>
      intro st h
      obtain ⟨st₁, h₁⟩ := preambleLine_of_readable d tm (h l (by simp)) st
      obtain ⟨st', h'⟩ := ih st₁ fun l' hl' => h l' (by simp [hl'])
      exact ⟨st', by rw [List.foldlM_cons, h₁]; exact h'⟩
  obtain ⟨st, hst⟩ := key t.lines {} t.readable
  exact ⟨st, hst, by rw [Trace.preamble, hst]⟩

/-- **The preamble that is read** has the announced entries, so that the
samples convert to the waveform they denote. -/
theorem Trace.rawToScipyArray (t : Trace) (d tm : Bytes) :
    rawToScipyArray scale t.samples (ascii "LSBFIRST") (t.preamble d tm) = .ok t.axes := by
  obtain ⟨st, hrun, hpre⟩ := t.foldlM_lines d tm
  obtain ⟨v₁, hv₁, hformat⟩ := t.commType
  obtain ⟨v₂, hv₂, hpoints⟩ := t.waveArrayCount
  obtain ⟨v₃, hv₃, hgain⟩ := t.verticalGain
  obtain ⟨v₄, hv₄, hoffset⟩ := t.verticalOffset
  obtain ⟨v₅, hv₅, hinterval⟩ := t.horizInterval
  obtain ⟨v₆, hv₆, horigin⟩ := t.horizOffset
  rw [hpre]
  exact rawToScipyArray_word scale t.samples_length
    (tracks_format.foldlM _ hrun hv₁ (congrArg Except.ok hformat))
    (tracks_points.foldlM _ hrun hv₂ hpoints) (tracks_yIncrement.foldlM _ hrun hv₃ hgain)
    (tracks_yOrigin.foldlM _ hrun hv₄ hoffset) (tracks_xIncrement.foldlM _ hrun hv₅ hinterval)
    (tracks_xOrigin.foldlM _ hrun hv₆ horigin)

/-- The text of a preamble and its end mark. -/
theorem getPreambleFromFile_of_readable {lines : List Bytes} {st : ParseState}
    (h : ∀ l ∈ lines, Readable l) (hrun : lines.foldlM (preambleLine d tm) {} = .ok st)
    (rest : Bytes) :
    getPreambleFromFile d tm (lines.flatMap (· ++ [newline]) ++
      (ascii "#preamble_end:" ++ newline :: rest)) = .ok (st.preamble, rest) := by
  have hloop : forLines (preambleBody d tm) {} (lines.flatMap (· ++ [newline]) ++
      (ascii "#preamble_end:" ++ newline :: rest)) = .ok (st, rest) := by
    rw [forLines_lines (shrinks_preambleBody d tm) (fun l hl => (h l hl).line) ?_ hrun,
      forLines_done (shrinks_preambleBody d tm) (by decide)]
    · rfl
    · intro l hl st₁ st₂ r hstep
      rw [preambleBody, strip_append_newline, if_neg (h l hl).mark,
        preambleLine_append_newline, bind_of_ok (lift_of_ok hstep)]
      rfl
  rw [getPreambleFromFile, bind_of_ok hloop]
  rfl

theorem getPreambleFromFile_lines (t : Trace) (d tm rest : Bytes) :
    getPreambleFromFile d tm (t.lines.flatMap (· ++ [newline]) ++
      (ascii "#preamble_end:" ++ newline :: rest)) = .ok (t.preamble d tm, rest) := by
  obtain ⟨st, hrun, hpre⟩ := t.foldlM_lines d tm
  rw [getPreambleFromFile_of_readable t.readable hrun, hpre]

/-- The section of one preamble, from its mark to its end mark. -/
theorem forLines_preamble (t : Trace) {st : ReaderState} (rest : Bytes)
    (hdate : st.header.dateInFile = some d) (htime : st.header.timeInFile = some tm)
    (horder : st.header.byteOrder = some order) :
    forLines fileBody st (ascii "#preamble:" ++ [newline] ++ (t.inspect ++ [newline]) ++
        (ascii "#preamble_end:" ++ [newline]) ++ rest) =
      forLines fileBody { st with
        waveformData :=
          st.waveformData.set t.chan { byteOrder := order, preamble := t.preamble d tm } }
        rest := by
  have hfirst : newline ∉ ascii "C" ++ t.name ++ t.echo := by
    simp only [List.mem_append, not_or]
    exact ⟨⟨by decide, not_mem_of_isDigit (decimal_isDigit _) (by decide)⟩, t.echo_line⟩
  have hname : t.name = [digit t.chan] := decimal_of_lt_ten t.chan_lt
  -- the reader takes one digit for the channel
  have hchan : pyInt [digit t.chan] = .ok (t.chan : ℤ) := hname ▸ pyInt_decimal t.chan
  have hitem : listItem (ascii "C" ++ t.name ++ t.echo ++ [newline]) 1 = .ok (digit t.chan) := by
    rw [hname]
    rfl
  have htext : ascii "#preamble:" ++ [newline] ++ (t.inspect ++ [newline]) ++
      (ascii "#preamble_end:" ++ [newline]) ++ rest = ascii "#preamble:" ++ newline ::
        (ascii "C" ++ t.name ++ t.echo ++ newline :: (t.lines.flatMap (· ++ [newline]) ++
          (ascii "#preamble_end:" ++ newline :: rest))) := by
    rw [Trace.inspect, intercalate_append_newline, List.flatMap_cons]
    simp
  have hread : readPreamble st (ascii "C" ++ t.name ++ t.echo ++ newline ::
      (t.lines.flatMap (· ++ [newline]) ++ (ascii "#preamble_end:" ++ newline :: rest))) =
      .ok ((ascii "C" ++ t.name ++ t.echo ++ [newline], { st with
        waveformData :=
          st.waveformData.set t.chan
            { byteOrder := order, preamble := t.preamble d tm } }), rest) := by
    rw [readPreamble, bind_of_ok (readline_line (splitLine_line hfirst)),
      bind_of_ok (lift_of_ok hitem), bind_of_ok (lift_of_ok hchan),
      bind_of_ok (lift_of_ok (bound_of_eq horder)), bind_of_ok (lift_of_ok (bound_of_eq hdate)),
      bind_of_ok (lift_of_ok (bound_of_eq htime)),
      bind_of_ok (getPreambleFromFile_lines t d tm rest)]
    rfl
  rw [htext, forLines_yield shrinks_fileBody (by decide)]
  rw [fileBody, bind_of_ok (lift_of_ok (headerLine_of_not_startsWith _ rfl rfl rfl)),
    onMark_of_startsWith rfl, bind_of_ok hread]
  rw [hname]
  rfl

/-- A line that begins with no mark is skipped. -/
theorem fileBody_of_not_startsWith {line : Bytes} (st : ReaderState) (rest : Bytes)
    (hmark : ∀ m ∈ ["#date:", "#time:", "#byteorder:", "#preamble:", "#waveform_data:"],
      startsWith (ascii m) line = false) :
    fileBody line st rest = .ok (.yield st, rest) := by
  simp only [List.mem_cons, List.not_mem_nil, or_false, forall_eq_or_imp, forall_eq] at hmark
  obtain ⟨hdate, htime, horder, hpreamble, hdata⟩ := hmark
  rw [fileBody, bind_of_ok (lift_of_ok (headerLine_of_not_startsWith _ hdate htime horder)),
    onMark_of_not_startsWith hpreamble]
  change (onMark "#waveform_data:" line (readWaveform st) st >>= fun st =>
    pure (ForInStep.yield st)) rest = _
  rw [onMark_of_not_startsWith hdata]
  rfl

/-- The section of one descriptor block: no line of it is a mark. -/
theorem forLines_descriptor (t : Trace) (st : ReaderState) (rest : Bytes) :
    forLines fileBody st (ascii "#waveform_desc:" ++ [newline] ++ t.descriptorBlock ++ rest) =
      forLines fileBody st rest := by
  have hblock : ascii "#waveform_desc:" ++ [newline] ++ t.descriptorBlock =
      (ascii "#waveform_desc:" :: t.descriptor).flatMap (· ++ [newline]) := rfl
  have hplain : ∀ l ∈ t.descriptor, ∀ m : String, (ascii m).head? = some 35 →
      startsWith (ascii m) (l ++ [newline]) = false := by
    intro l hl m hm
    refine startsWith_of_head?_ne hm ?_
    have hhead := (t.descriptor_lines l hl).2
    cases l with
    | nil => decide
    | cons b l => exact hhead
  rw [hblock]
  refine forLines_skip shrinks_fileBody (fun l hl => ?_) fun l hl r => ?_
  · rcases List.mem_cons.1 hl with rfl | hl
    · decide
    · exact (t.descriptor_lines l hl).1
  · refine fileBody_of_not_startsWith st r fun m hm => ?_
    rcases List.mem_cons.1 hl with rfl | hl
    · revert m
      decide
    · refine hplain l hl m ?_
      revert m
      decide

/-- **The section of one data block.** The byte count of the block takes
the reader past the samples, whatever they are. -/
theorem forLines_data (t : Trace) {st : ReaderState} (rest : Bytes)
    (horder : st.header.byteOrder = some (ascii "LSBFIRST")) {ch : Channel}
    (hch : Dict.get? st.waveformData t.chan = some ch) (hpre : ch.preamble = t.preamble d tm) :
    forLines fileBody st (ascii "#waveform_data:" ++ [newline] ++ t.dataBlock ++ rest) =
      forLines fileBody { st with
        waveformData := st.waveformData.set t.chan { ch with waveform := some t.axes } } rest := by
  have hname : t.name = [digit t.chan] := decimal_of_lt_ten t.chan_lt
  have hchan : pyInt [digit t.chan] = .ok (t.chan : ℤ) := hname ▸ pyInt_decimal t.chan
  have hcount : decimal t.digits.length = [digit t.digits.length] :=
    decimal_of_lt_ten (by have := t.digits_length; omega)
  have hdigits : pyInt t.digits = .ok ((2 * t.points : ℕ) : ℤ) := by
    rw [pyInt_of_isDigit (List.ne_nil_of_length_pos t.digits_length.1) t.digits_isDigit,
      t.digits_value]
  have htext : ascii "#waveform_data:" ++ [newline] ++ t.dataBlock ++ rest =
      ascii "#waveform_data:" ++ newline :: (ascii "C" ++ [digit t.chan] ++ ascii ":WF DAT1,#" ++
        (decimal t.digits.length ++ (t.digits ++ (t.samples ++ newline :: rest)))) := by
    simp [Trace.dataBlock, hname]
  have hread : readWaveform st (ascii "C" ++ [digit t.chan] ++ ascii ":WF DAT1,#" ++
      (decimal t.digits.length ++ (t.digits ++ (t.samples ++ newline :: rest)))) =
      .ok ({ st with
        waveformData :=
          st.waveformData.set t.chan { ch with waveform := some t.axes } }, rest) := by
    -- of the twelve bytes before the count only the digit of the channel is used
    have hheader : ((ascii "C" ++ [digit t.chan] ++ ascii ":WF DAT1,#").length : ℤ) = 12 := rfl
    rw [readWaveform, bind_of_ok (read_append hheader),
      bind_of_ok (lift_of_ok (show listItem _ 1 = .ok (digit t.chan) from rfl)),
      bind_of_ok (lift_of_ok hchan), bind_of_ok (read_append (by rw [hcount]; rfl)),
      bind_of_ok (lift_of_ok (pyInt_decimal _)), bind_of_ok (read_append rfl),
      bind_of_ok (lift_of_ok hdigits), bind_of_ok (read_append (by rw [t.samples_length])),
      bind_of_ok (lift_of_ok (bound_of_eq horder)),
      bind_of_ok (lift_of_ok (Dict.getItem_of_get? hch)), hpre,
      bind_of_ok (lift_of_ok (t.rawToScipyArray d tm)),
      bind_of_ok (readline_line (show splitLine (newline :: rest) = ([newline], rest) from rfl))]
    rfl
  rw [htext, forLines_yield shrinks_fileBody (by decide)]
  rw [fileBody, bind_of_ok (lift_of_ok (headerLine_of_not_startsWith _ rfl rfl rfl)),
    onMark_of_not_startsWith rfl]
  change (onMark "#waveform_data:" _ (readWaveform st) st >>= fun st =>
    pure (ForInStep.yield st)) _ = _
  rw [onMark_of_startsWith rfl, bind_of_ok hread]
  rfl

end Sections

/-! ## The whole file -/

/-- The header lines change the header of the reader only. -/
theorem foldlM_header (ls : List Bytes) {st : ReaderState} {h' : Header}
    (h : ls.foldlM (fun h l => headerLine (l ++ [newline]) h) st.header = .ok h') :
    ls.foldlM (fun (st : ReaderState) l => do
      pure { st with header := ← headerLine (l ++ [newline]) st.header }) st =
        .ok { st with header := h' } := by
  induction ls generalizing st with
  | nil =>
    rw [← Except.ok.inj h]
    rfl
  | cons l ls ih =>
    rw [List.foldlM_cons] at h ⊢
    rcases hl : headerLine (l ++ [newline]) st.header with e | h₁
    · rw [hl] at h
      cases h
    · rw [hl] at h
      have hrest : ls.foldlM (fun h l => headerLine (l ++ [newline]) h) h₁ = .ok h' := h
      exact @ih { st with header := h₁ } hrest

/-- The header lines bind the date, the time and the byte order. -/
theorem forLines_header {channels : Bytes} (hc : newline ∉ channels) (timestamp : LocalTime)
    (rest : Bytes) :
    forLines fileBody {} ((headerMarks channels timestamp).flatMap (· ++ [newline]) ++ rest) =
      forLines fileBody { header := writtenHeader timestamp } rest := by
  refine forLines_lines shrinks_fileBody (newline_not_mem_headerMarks hc timestamp) ?_
    (foldlM_header _ (foldlM_headerLine channels timestamp))
  -- none of the header lines opens a section
  intro l hl st st' r h
  have hmark : startsWith (ascii "#preamble:") (l ++ [newline]) = false ∧
      startsWith (ascii "#waveform_data:") (l ++ [newline]) = false := by
    simp only [headerMarks, List.mem_cons, List.not_mem_nil, or_false] at hl
    rcases hl with rfl | rfl | rfl | rfl | rfl <;> exact ⟨rfl, rfl⟩
  rcases hline : headerLine (l ++ [newline]) st.header with e | h₁
  · simp only [hline] at h
    cases h
  · simp only [hline] at h
    rw [fileBody, bind_of_ok (lift_of_ok hline), onMark_of_not_startsWith hmark.1]
    change (onMark "#waveform_data:" _ (readWaveform _) _ >>= fun st =>
      pure (ForInStep.yield st)) r = _
    rw [onMark_of_not_startsWith hmark.2, ← Except.ok.inj h]
    rfl

section File

variable {traces : List Trace} {timestamp : LocalTime}

/-- The dictionary entry of a trace after the preambles. -/
def Trace.loaded (timestamp : LocalTime) (t : Trace) : Channel where
  byteOrder := ascii "LSBFIRST"
  preamble := t.preamble (strip (strftimeDate timestamp)) (strftimeTime timestamp)

/-- The dictionary entry of a trace at the end of the file. -/
def Trace.complete (timestamp : LocalTime) (t : Trace) : Channel :=
  { t.loaded timestamp with waveform := some t.axes }

/-- The preambles of all channels, in order. -/
theorem forLines_preambles (rest : Bytes) :
    ∀ (traces : List Trace) (st : ReaderState), st.header = writtenHeader timestamp →
      forLines fileBody st (traces.flatMap (fun t => ascii "#preamble:" ++ [newline] ++
          (t.inspect ++ [newline]) ++ (ascii "#preamble_end:" ++ [newline])) ++ rest) =
        forLines fileBody { st with
          waveformData := traces.foldl
            (fun wf t => wf.set (t.chan : ℤ) (t.loaded timestamp)) st.waveformData } rest := by
  intro traces
  induction traces with
  | nil => intro st _; rfl
  | cons t traces ih =>
    intro st hst
    have hdate : st.header.dateInFile = some (strip (strftimeDate timestamp)) := by rw [hst]; rfl
    have htime : st.header.timeInFile = some (strftimeTime timestamp) := by rw [hst]; rfl
    have horder : st.header.byteOrder = some (ascii "LSBFIRST") := by rw [hst]; rfl
    rw [List.flatMap_cons, List.append_assoc, forLines_preamble t _ hdate htime horder]
    exact ih _ hst

/-- The descriptor blocks of all channels. -/
theorem forLines_descriptors (rest : Bytes) (st : ReaderState) :
    ∀ traces : List Trace,
      forLines fileBody st (traces.flatMap (fun t => ascii "#waveform_desc:" ++ [newline] ++
        t.descriptorBlock) ++ rest) = forLines fileBody st rest := by
  intro traces
  induction traces with
  | nil => rfl
  | cons t traces ih => rw [List.flatMap_cons, List.append_assoc, forLines_descriptor, ih]

/-- **The data blocks of all channels**: each lands in the entry its
preamble made. -/
theorem forLines_blocks (rest : Bytes) :
    ∀ (traces : List Trace) (st : ReaderState), st.header = writtenHeader timestamp →
      (traces.map (·.chan)).Nodup →
      (∀ t ∈ traces, Dict.get? st.waveformData t.chan = some (t.loaded timestamp)) →
      forLines fileBody st (traces.flatMap (fun t => ascii "#waveform_data:" ++ [newline] ++
          t.dataBlock) ++ rest) =
        forLines fileBody { st with
          waveformData := traces.foldl
            (fun wf t => wf.set (t.chan : ℤ) (t.complete timestamp)) st.waveformData } rest := by
  intro traces
  induction traces with
  | nil => intro st _ _ _; rfl
  | cons t traces ih =>
    intro st hst hnd hloaded
    rw [List.map_cons, List.nodup_cons] at hnd
    have horder : st.header.byteOrder = some (ascii "LSBFIRST") := by rw [hst]; rfl
    rw [List.flatMap_cons, List.append_assoc, forLines_data t _ horder (hloaded t (by simp)) rfl]
    refine ih { st with waveformData := _ } hst hnd.2 fun t' ht' => ?_
    have hne : (t.chan : ℤ) ≠ t'.chan := fun heq =>
      hnd.1 (List.mem_map.2 ⟨t', ht', (Int.natCast_inj.1 heq).symm⟩)
    exact (Dict.get?_set_of_ne _ hne _).trans (hloaded t' (by simp [ht']))

/-- The written file, section by section. -/
theorem getWaveforms_eq {scope : Scope} (hne : traces ≠ [])
    (hscope : ∀ t ∈ traces, scope.ask (inspectQuery t.name) = t.inspect ∧
      scope.askRaw (descQuery t.name) = t.descriptorBlock ∧
      scope.askRaw (dataQuery t.name) = t.dataBlock) :
    getWaveforms scope ([comma].intercalate (traces.map Trace.name)) timestamp =
      fileHeader magic ([comma].intercalate (traces.map Trace.name)) timestamp ++
        (traces.flatMap (fun t => ascii "#preamble:" ++ [newline] ++ (t.inspect ++ [newline]) ++
            (ascii "#preamble_end:" ++ [newline])) ++
          (traces.flatMap (fun t => ascii "#waveform_desc:" ++ [newline] ++ t.descriptorBlock) ++
            (traces.flatMap (fun t => ascii "#waveform_data:" ++ [newline] ++ t.dataBlock) ++
              []))) := by
  have hsplit : ([comma].intercalate (traces.map Trace.name)).splitOn comma =
      traces.map Trace.name := by
    refine List.splitOn_intercalate comma (fun l hl => ?_) (by simpa using hne)
    obtain ⟨t, -, rfl⟩ := List.mem_map.1 hl
    exact not_mem_of_isDigit (decimal_isDigit _) (by decide)
  simp only [getWaveforms, hsplit, List.flatMap_map, List.append_nil, List.append_assoc]
  refine congrArg _ (congrArg₂ _ ?_ (congrArg₂ _ ?_ ?_)) <;>
    exact List.flatMap_congr fun t ht => by simp only [hscope t ht]

end File

/-- **A written capture is read back.** Whatever the texts, the
descriptors and the samples are, reading the file `get_waveforms` writes
returns the channels it was asked for, each with the waveform its own
block denotes. -/
theorem fileToWaveform_getWaveforms (traces : List Trace) (hne : traces ≠ [])
    (hdistinct : (traces.map (·.chan)).Nodup) (scope : Scope)
    (hscope : ∀ t ∈ traces, scope.ask (inspectQuery t.name) = t.inspect ∧
      scope.askRaw (descQuery t.name) = t.descriptorBlock ∧
      scope.askRaw (dataQuery t.name) = t.dataBlock) (timestamp : LocalTime) :
    ∃ wf, fileToWaveform (getWaveforms scope ([comma].intercalate (traces.map Trace.name))
        timestamp) = .ok (some wf) ∧
      (∀ c, (Dict.get? wf c).isSome = true ↔ ∃ t ∈ traces, c = (t.chan : ℤ)) ∧
      ∀ t ∈ traces, ∃ ch, Dict.get? wf (t.chan : ℤ) = some ch ∧ ch.waveform = some t.axes := by
  have hchannels : newline ∉ [comma].intercalate (traces.map Trace.name) := by
    refine not_mem_intercalate (by decide) fun l hl => ?_
    obtain ⟨t, -, rfl⟩ := List.mem_map.1 hl
    exact not_mem_of_isDigit (decimal_isDigit _) (by decide)
  have hnd : (traces.map fun t => (t.chan : ℤ)).Nodup := by
    have := hdistinct.map (Nat.cast_injective (R := ℤ))
    rwa [List.map_map] at this
  refine ⟨traces.foldl (fun wf t => wf.set (t.chan : ℤ) (t.complete timestamp))
    (traces.foldl (fun wf t => wf.set (t.chan : ℤ) (t.loaded timestamp)) []), ?_, fun c => ?_,
    fun t ht => ⟨t.complete timestamp, Dict.get?_foldl_set hnd t ht, rfl⟩⟩
  · rw [getWaveforms_eq hne hscope, fileToWaveform,
      checkMagic_fileHeader timestamp _ (by decide) (by decide)]
    simp only [bind, Except.bind, if_true]
    rw [forLines_header hchannels, forLines_preambles _ _ _ rfl, forLines_descriptors,
      forLines_blocks _ _ _ rfl hdistinct fun t ht => Dict.get?_foldl_set hnd t ht, forLines_nil]
    rfl
  · exact Dict.isSome_get?_replaced hnd c

/-- A capture of one point, the bytes of which are a newline and a mark's
first byte. -/
def onePoint : Trace where
  chan := 1
  echo := ascii ":INSP"
  lines := [ascii "COMM_TYPE : word", ascii "WAVE_ARRAY_COUNT : 1", ascii "VERTICAL_GAIN : 0.5",
    ascii "VERTICAL_OFFSET : -1e+1", ascii "HORIZ_INTERVAL : 2.5E-3", ascii "HORIZ_OFFSET : 4"]
  points := 1
  gain := 1 / 2
  offset := -10
  interval := 1 / 400
  origin := 4
  descriptor := [ascii "WAVEDESC", []]
  digits := ascii "002"
  samples := [10, 35]
  chan_lt := by decide
  echo_line := by decide
  readable := by
    simp only [List.mem_cons, List.not_mem_nil, or_false, forall_eq_or_imp, forall_eq]
    exact ⟨.of_key (k := .commType) (by decide) (by decide) rfl rfl trivial,
      .of_key (k := .waveArrayCount) (by decide) (by decide) rfl rfl ⟨1, by decide +kernel⟩,
      .of_key (k := .verticalGain) (by decide) (by decide) rfl rfl ⟨1 / 2, by decide +kernel⟩,
      .of_key (k := .verticalOffset) (by decide) (by decide) rfl rfl ⟨-10, by decide +kernel⟩,
      .of_key (k := .horizInterval) (by decide) (by decide) rfl rfl ⟨1 / 400, by decide +kernel⟩,
      .of_key (k := .horizOffset) (by decide) (by decide) rfl rfl ⟨4, by decide +kernel⟩⟩
  commType := ⟨ascii " word", by decide +kernel, by decide⟩
  waveArrayCount := ⟨ascii " 1", by decide +kernel, by decide +kernel⟩
  verticalGain := ⟨ascii " 0.5", by decide +kernel, by decide +kernel⟩
  verticalOffset := ⟨ascii " -1e+1", by decide +kernel, by decide +kernel⟩
  horizInterval := ⟨ascii " 2.5E-3", by decide +kernel, by decide +kernel⟩
  horizOffset := ⟨ascii " 4", by decide +kernel, by decide +kernel⟩
  descriptor_lines := by decide
  digits_length := by decide
  digits_isDigit := by decide +kernel
  digits_value := by decide +kernel
  samples_length := rfl

/-- An oscilloscope with that one channel. -/
def onePointScope : Scope where
  ask _ := onePoint.inspect
  askRaw query := if query = descQuery onePoint.name then onePoint.descriptorBlock
    else onePoint.dataBlock

theorem fileToWaveform_getWaveforms_onePoint :
    ∃ wf, fileToWaveform (getWaveforms onePointScope
        ([comma].intercalate ([onePoint].map Trace.name)) ⟨21, 0, 2016, 11, 3, 38⟩) =
        .ok (some wf) ∧
      (∀ c, (Dict.get? wf c).isSome = true ↔ ∃ t ∈ [onePoint], c = (t.chan : ℤ)) ∧
      ∀ t ∈ [onePoint], ∃ ch, Dict.get? wf (t.chan : ℤ) = some ch ∧ ch.waveform = some t.axes :=
  fileToWaveform_getWaveforms [onePoint] (by decide) (by decide) onePointScope
    (by
      intro t ht
      obtain rfl := List.mem_singleton.1 ht
      exact ⟨rfl, by decide +kernel, by decide +kernel⟩)
    ⟨21, 0, 2016, 11, 3, 38⟩

end LeCroy8254

end Capture

end WrCalibration
