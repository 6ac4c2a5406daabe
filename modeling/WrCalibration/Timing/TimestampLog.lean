import WrCalibration.Common.FileObject
import WrCalibration.Timing.TimeInternal

/-!
# The timestamp log, and the pairs read from it

A send prints its timestamp and leaves the line open, a receive prints
its own and ends the line, so a line holds the sends since the last
receive and that receive. The reader takes the first six words of a line
for one pair and stops at a line with fewer. `runs` cuts a run of the
node into lines, `readRuns` is what the reader makes of them, and
`Paired` says when that is what was meant.
-/

namespace WrCalibration

namespace Timing

open Python FileM

/-! ## The reader -/

/-- `gui_data`, the four arrays of it. -/
structure GuiData where
  t1Seconds : List Bytes := []
  t1 : List ℚ := []
  t4Seconds : List Bytes := []
  t4 : List ℚ := []
  deriving DecidableEq

/-- `1e-9 * float64(ns) + 1e-12 * float64(phase)` -/
def stampValue (ns phase : Bytes) : Py ℚ := do
  pure (1e-9 * (← pyFloat ns) + 1e-12 * (← pyFloat phase))

/-- The body of the loop of `wr_abs_cal_gui_file_to_scipy_array`. The end
of the file is a line of one empty word, and leaves the loop as any short
line does. -/
def logBody (line : Bytes) (data : GuiData) : FileM (ForInStep GuiData) :=
  let lineLst := line.splitOn 32
  if lineLst.length < 6 then pure (.done data)
  else do
    let t1Sec ← listItem lineLst 0
    let t1 ← stampValue (← listItem lineLst 1) (← listItem lineLst 2)
    let t4Sec ← listItem lineLst 3
    let t4 ← stampValue (← listItem lineLst 4) (← listItem lineLst 5)
    pure (.yield {
      t1Seconds := data.t1Seconds ++ [t1Sec], t1 := data.t1 ++ [t1]
      t4Seconds := data.t4Seconds ++ [t4Sec], t4 := data.t4 ++ [t4] })

/-- `wr_abs_cal_gui_file_to_scipy_array` -/
def wrAbsCalGuiFileToScipyArray (file : Bytes) : Py GuiData := do
  let (data, _) ← forLines logBody {} file
  pure data

/-! ## What the log means -/

/-- **The pairs of a run**: t1 of each send and t4 of the receive that
immediately follows it. -/
def pairs : List Event → List (TimeInternal × TimeInternal)
  | .send t1 :: .recv t4 bitslide :: events =>
    ((Event.send t1).stamp, (Event.recv t4 bitslide).stamp) :: pairs (.recv t4 bitslide :: events)
  | _ :: events => pairs events
  | [] => []

/-- The nanoseconds and picoseconds of a timestamp, in seconds. -/
def TimeInternal.fraction (t : TimeInternal) : ℚ := 1e-9 * t.nanoseconds + 1e-12 * t.phase

/-- The four arrays of a list of pairs. -/
def GuiData.ofPairs (ps : List (TimeInternal × TimeInternal)) : GuiData where
  t1Seconds := ps.map fun p => formatD 9 p.1.seconds
  t1 := ps.map fun p => p.1.fraction
  t4Seconds := ps.map fun p => formatD 9 p.2.seconds
  t4 := ps.map fun p => p.2.fraction

/-! ## Lines -/

/-- A line of the log: the sends since the last receive, and the receive
that ends it. -/
structure Run where
  sends : List TimeInternal
  recv : TimeInternal

/-- The lines of a run, and the sends after the last of them. -/
def runs : List Event → List Run × List TimeInternal
  | [] => ([], [])
  | .recv t4 bitslide :: events =>
    (⟨[], (Event.recv t4 bitslide).stamp⟩ :: (runs events).1, (runs events).2)
  | .send t1 :: events =>
    match runs events with
    | ([], tail) => ([], (Event.send t1).stamp :: tail)
    | (r :: rs, tail) => (⟨(Event.send t1).stamp :: r.sends, r.recv⟩ :: rs, tail)

/-- A timestamp that leaves the line open. -/
def sendText (t : TimeInternal) : Bytes := stampText t ++ ascii " "

/-- The text of a line, without its newline. -/
def Run.text (r : Run) : Bytes := r.sends.flatMap sendText ++ stampText r.recv

/-- The pair a line holds: its last send and its receive. -/
def Run.pair (r : Run) : Option (TimeInternal × TimeInternal) :=
  r.sends.getLast?.map fun t1 => (t1, r.recv)

/-- The log is its lines and what was sent after them. -/
theorem log_eq (events : List Event) :
    log events = ((runs events).1.map Run.text).flatMap (· ++ [newline]) ++
      (runs events).2.flatMap sendText := by
  induction events with
  | nil => rfl
  | cons e events ih =>
    rw [log, List.flatMap_cons, ← log, ih]
    cases e with
    | recv t4 bitslide => simp [runs, Event.print, Run.text]
    | send t1 =>
      rcases hrs : runs events with ⟨_ | ⟨r, rs⟩, tail⟩
      · simp [runs, hrs, Event.print, sendText]
      · simp [runs, hrs, Event.print, sendText, Run.text]

/-- The pairs of a run are the pairs of its lines. -/
theorem pairs_eq (events : List Event) : pairs events = (runs events).1.filterMap Run.pair := by
  have hrecv : ∀ t4 bitslide (es : List Event), pairs (.recv t4 bitslide :: es) = pairs es := by
    intro t4 bitslide es
    rw [pairs]
    simp
  induction events with
  | nil => rfl
  | cons e events ih =>
    cases e with
    | recv t4 bitslide => rw [hrecv, ih]; rfl
    | send t1 =>
      match events with
      | [] => rfl
      | .recv t4 bitslide :: events =>
        rw [pairs, ih]
        rfl
      | .send t1' :: events =>
        have hskip : pairs (.send t1 :: .send t1' :: events) = pairs (.send t1' :: events) := by
          rw [pairs]
          simp
        rw [hskip, ih]
        simp only [runs]
        rcases runs events with ⟨_ | ⟨r, rs⟩, tail⟩
        · rfl
        · simp only [List.filterMap_cons, Run.pair, List.getLast?_cons_cons]

/-- The stamps of the lines are those of the events. -/
theorem runs_forall {p : TimeInternal → Prop} {events : List Event} (h : ∀ e ∈ events, p e.stamp) :
    (∀ r ∈ (runs events).1, p r.recv ∧ ∀ t ∈ r.sends, p t) ∧ ∀ t ∈ (runs events).2, p t := by
  induction events with
  | nil => simp [runs]
  | cons e events ih =>
    obtain ⟨he, hes⟩ := List.forall_mem_cons.1 h
    obtain ⟨hr, ht⟩ := ih hes
    cases e with
    | recv t4 bitslide =>
      rw [runs]
      exact ⟨List.forall_mem_cons.2 ⟨⟨he, by simp⟩, hr⟩, ht⟩
    | send t1 =>
      rcases hrs : runs events with ⟨_ | ⟨r, rs⟩, tail⟩
      · rw [hrs] at ht
        simp only [runs, hrs]
        exact ⟨by simp, List.forall_mem_cons.2 ⟨he, ht⟩⟩
      · rw [hrs] at hr ht
        simp only [runs, hrs]
        obtain ⟨⟨hrecv, hsends⟩, hrest⟩ := List.forall_mem_cons.1 hr
        exact ⟨List.forall_mem_cons.2 ⟨⟨hrecv, List.forall_mem_cons.2 ⟨he, hsends⟩⟩, hrest⟩, ht⟩

/-! ## What the reader makes of the lines -/

/-- **The pairs the reader takes**: the first two timestamps of every
line with two of them, up to the first line with one, and of what was
sent after the last line. -/
def readRuns : List Run → List TimeInternal → List (TimeInternal × TimeInternal)
  | [], [] => []
  | [], [_] => []
  | [], t1 :: t4 :: _ => [(t1, t4)]
  | ⟨[], _⟩ :: _, _ => []
  | ⟨t1 :: more, t4⟩ :: rs, tail => (t1, (more ++ [t4]).headD t4) :: readRuns rs tail

/-- The words of a timestamp. -/
def words (t : TimeInternal) : List Bytes :=
  [formatD 9 t.seconds, formatD 9 t.nanoseconds, formatD 3 t.phase]

theorem stampValue_eq {t : TimeInternal} (h : t.NonNeg) :
    stampValue (formatD 9 t.nanoseconds) (formatD 3 t.phase) = .ok t.fraction := by
  have hfloat : ∀ {k : ℕ} {n : ℤ}, 0 ≤ n → pyFloat (formatD k n) = .ok (n : ℚ) := by
    intro k n hn
    rw [pyFloat_of_isDigit (formatD_ne_nil hn) (formatD_isDigit hn)]
    rw [← Int.cast_natCast, ofDecimal_formatD hn]
  rw [stampValue, hfloat h.nanoseconds, hfloat h.phase]
  rfl

theorem words_not_mem {t : TimeInternal} (h : t.NonNeg) {c : UInt8} (hc : isDigit c = false) :
    ∀ w ∈ words t, c ∉ w := by
  simp only [words, List.mem_cons, List.not_mem_nil, or_false, forall_eq_or_imp, forall_eq]
  exact ⟨not_mem_of_isDigit (formatD_isDigit h.seconds) hc,
    not_mem_of_isDigit (formatD_isDigit h.nanoseconds) hc,
    not_mem_of_isDigit (formatD_isDigit h.phase) hc⟩

/-- A timestamp before a space, or before the newline, is three words. -/
theorem splitOn_stampText {t : TimeInternal} (h : t.NonNeg) (rest : Bytes) :
    (stampText t ++ ascii " " ++ rest).splitOn 32 = words t ++ rest.splitOn 32 ∧
      (stampText t ++ [newline]).splitOn 32 =
        [formatD 9 t.seconds, formatD 9 t.nanoseconds, formatD 3 t.phase ++ [newline]] := by
  have hword := words_not_mem h (c := 32) (by decide)
  simp only [words, List.mem_cons, List.not_mem_nil, or_false, forall_eq_or_imp, forall_eq] at hword
  obtain ⟨hs, hn, hp⟩ := hword
  have hspace : ascii " " = [32] := rfl
  constructor
  · simp only [stampText, hspace, List.append_assoc, List.cons_append, List.nil_append]
    rw [List.splitOn_append_cons_self_of_not_mem hs, List.splitOn_append_cons_self_of_not_mem hn,
      List.splitOn_append_cons_self_of_not_mem hp]
    rfl
  · have hlast : (32 : UInt8) ∉ formatD 3 t.phase ++ [newline] := by
      rw [List.mem_append, not_or]
      exact ⟨hp, by decide⟩
    simp only [stampText, hspace, List.append_assoc, List.cons_append, List.nil_append]
    rw [List.splitOn_append_cons_self_of_not_mem hs, List.splitOn_append_cons_self_of_not_mem hn,
      List.splitOn_eq_singleton hlast]

/-- Sends are three words each. -/
theorem splitOn_sends {ts : List TimeInternal} (h : ∀ t ∈ ts, t.NonNeg) (rest : Bytes) :
    (ts.flatMap sendText ++ rest).splitOn 32 = ts.flatMap words ++ rest.splitOn 32 := by
  induction ts with
  | nil => rfl
  | cons t ts ih =>
    rw [List.flatMap_cons, List.append_assoc, sendText, (splitOn_stampText (h t (by simp)) _).1,
      ih fun t' ht' => h t' (by simp [ht']), List.flatMap_cons, List.append_assoc]

/-- Sends and receives print no newline of their own. -/
theorem newline_not_mem_sends {ts : List TimeInternal} (h : ∀ t ∈ ts, t.NonNeg) :
    newline ∉ ts.flatMap sendText := by
  simp only [List.mem_flatMap, not_exists, not_and]
  intro t ht
  have hword := words_not_mem (h t ht) (c := newline) (by decide)
  simp only [words, List.mem_cons, List.not_mem_nil, or_false, forall_eq_or_imp, forall_eq] at hword
  have hspace : newline ∉ ascii " " := by decide
  simp [sendText, stampText, hword, hspace]

theorem newline_not_mem_text {r : Run} (hs : ∀ t ∈ r.sends, t.NonNeg) (hr : r.recv.NonNeg) :
    newline ∉ r.text := by
  have hword := words_not_mem hr (c := newline) (by decide)
  simp only [words, List.mem_cons, List.not_mem_nil, or_false, forall_eq_or_imp, forall_eq] at hword
  have hspace : newline ∉ ascii " " := by decide
  rw [Run.text, List.mem_append, not_or]
  exact ⟨newline_not_mem_sends hs, by simp [stampText, hword, hspace]⟩

/-- A line with fewer than six words ends the loop. -/
theorem logBody_short {line : Bytes} (data : GuiData) (rest : Bytes)
    (h : (line.splitOn 32).length < 6) : logBody line data rest = .ok (.done data, rest) := by
  rw [logBody]
  simp only [h, if_true]
  rfl

/-- **A line with six words or more is a pair**, the words after the sixth
are not read. -/
theorem logBody_six {line : Bytes} {s1 n1 p1 s4 n4 p4 : Bytes} {more : List Bytes} {t1 t4 : ℚ}
    (data : GuiData) (rest : Bytes)
    (hline : line.splitOn 32 = s1 :: n1 :: p1 :: s4 :: n4 :: p4 :: more)
    (h1 : stampValue n1 p1 = .ok t1) (h4 : stampValue n4 p4 = .ok t4) :
    logBody line data rest = .ok (.yield {
      t1Seconds := data.t1Seconds ++ [s1], t1 := data.t1 ++ [t1]
      t4Seconds := data.t4Seconds ++ [s4], t4 := data.t4 ++ [t4] }, rest) := by
  have hlen : ¬ (line.splitOn 32).length < 6 := by
    rw [hline]
    simp
  have hitem : ∀ i w, (s1 :: n1 :: p1 :: s4 :: n4 :: p4 :: more)[i]? = some w →
      listItem (line.splitOn 32) i = .ok w := by
    intro i w hw
    rw [hline, listItem, hw]
    rfl
  rw [logBody]
  simp only [if_neg hlen]
  rw [bind_of_ok (lift_of_ok (hitem 0 s1 rfl)), bind_of_ok (lift_of_ok (hitem 1 n1 rfl)),
    bind_of_ok (lift_of_ok (hitem 2 p1 rfl)), bind_of_ok (lift_of_ok h1),
    bind_of_ok (lift_of_ok (hitem 3 s4 rfl)), bind_of_ok (lift_of_ok (hitem 4 n4 rfl)),
    bind_of_ok (lift_of_ok (hitem 5 p4 rfl)), bind_of_ok (lift_of_ok h4)]
  rfl

/-- The pair of two timestamps, of which the line may end the second. -/
theorem logBody_pair {line : Bytes} {a b : TimeInternal} {p : Bytes} {more : List Bytes}
    (ps : List (TimeInternal × TimeInternal)) (rest : Bytes) (ha : a.NonNeg) (hb : b.NonNeg)
    (hline : line.splitOn 32 =
      words a ++ (formatD 9 b.seconds :: formatD 9 b.nanoseconds :: p :: more))
    (hp : strip p = strip (formatD 3 b.phase)) :
    logBody line (GuiData.ofPairs ps) rest =
      .ok (.yield (GuiData.ofPairs (ps ++ [(a, b)])), rest) := by
  have hb' : stampValue (formatD 9 b.nanoseconds) p = .ok b.fraction := by
    rw [← stampValue_eq hb, stampValue, pyFloat_congr hp, stampValue]
  rw [logBody_six _ rest hline (stampValue_eq ha) hb']
  simp only [GuiData.ofPairs, List.map_append]
  rfl

theorem shrinks_logBody (line : Bytes) (data : GuiData) : Shrinks (logBody line data) :=
  (Shrinks.pure _).ite ((Shrinks.lift _).bind fun _ => (Shrinks.lift _).bind fun _ =>
    (Shrinks.lift _).bind fun _ => (Shrinks.lift _).bind fun _ => (Shrinks.lift _).bind fun _ =>
      (Shrinks.lift _).bind fun _ => (Shrinks.lift _).bind fun _ => (Shrinks.lift _).bind fun _ =>
        Shrinks.pure _)

/-- What was sent after the last line is a pair if it has two timestamps. -/
theorem forLines_tail {tail : List TimeInternal} (ps : List (TimeInternal × TimeInternal))
    (h : ∀ t ∈ tail, t.NonNeg) :
    ∃ rest, forLines logBody (GuiData.ofPairs ps) (tail.flatMap sendText) =
      .ok (GuiData.ofPairs (ps ++ readRuns [] tail), rest) := by
  cases tail with
  | nil => exact ⟨[], by rw [readRuns, List.append_nil]; exact forLines_nil⟩
  | cons t1 more =>
    have hne : (t1 :: more).flatMap sendText ≠ [] := by simp [sendText, ascii]
    have hsplit := splitOn_sends h []
    rw [List.append_nil] at hsplit
    rw [forLines_eq shrinks_logBody hne, splitLine_of_not_mem (newline_not_mem_sends h)]
    cases more with
    | nil =>
      have hshort : (([t1].flatMap sendText).splitOn 32).length < 6 := by
        rw [hsplit]
        simp [words]
      rw [logBody_short _ _ hshort, readRuns, List.append_nil]
      exact ⟨[], rfl⟩
    | cons t4 more =>
      have hline : ((t1 :: t4 :: more).flatMap sendText).splitOn 32 = words t1 ++
          (formatD 9 t4.seconds :: formatD 9 t4.nanoseconds :: formatD 3 t4.phase ::
            (more.flatMap words ++ [[]])) := by
        rw [hsplit]
        simp [words]
      rw [logBody_pair ps [] (h t1 (by simp)) (h t4 (by simp)) hline rfl]
      exact ⟨[], forLines_nil⟩

/-- **What the reader returns** on any log. -/
theorem forLines_runs {rs : List Run} {tail : List TimeInternal}
    (ps : List (TimeInternal × TimeInternal))
    (hr : ∀ r ∈ rs, r.recv.NonNeg ∧ ∀ t ∈ r.sends, t.NonNeg) (ht : ∀ t ∈ tail, t.NonNeg) :
    ∃ rest, forLines logBody (GuiData.ofPairs ps)
        ((rs.map Run.text).flatMap (· ++ [newline]) ++ tail.flatMap sendText) =
      .ok (GuiData.ofPairs (ps ++ readRuns rs tail), rest) := by
  induction rs generalizing ps with
  | nil => exact forLines_tail ps ht
  | cons r rs ih =>
    obtain ⟨⟨hrecv, hsends⟩, hrs⟩ := List.forall_mem_cons.1 hr
    have hnl := newline_not_mem_text hsends hrecv
    have hsplit : (r.text ++ [newline]).splitOn 32 = r.sends.flatMap words ++
        [formatD 9 r.recv.seconds, formatD 9 r.recv.nanoseconds,
          formatD 3 r.recv.phase ++ [newline]] := by
      rw [Run.text, List.append_assoc, splitOn_sends hsends, (splitOn_stampText hrecv []).2]
    rw [List.map_cons, List.flatMap_cons, List.append_assoc, List.append_assoc,
      List.singleton_append]
    -- a run with no send ends the loop; one send pairs with the receive
    rcases r with ⟨_ | ⟨t1, more⟩, t4⟩
    · have hshort : ((Run.text ⟨[], t4⟩ ++ [newline]).splitOn 32).length < 6 := by
        rw [hsplit]
        simp
      rw [forLines_done shrinks_logBody hnl (logBody_short _ _ hshort), readRuns, List.append_nil]
      exact ⟨_, rfl⟩
    · have h1 := hsends t1 (by simp)
      have hpair : ∀ rest,
          logBody (Run.text ⟨t1 :: more, t4⟩ ++ [newline]) (GuiData.ofPairs ps) rest =
          .ok (.yield (GuiData.ofPairs (ps ++ [(t1, (more ++ [t4]).headD t4)])), rest) := by
        intro rest
        cases more with
        | nil => exact logBody_pair ps rest h1 hrecv hsplit (strip_append_newline _)
        | cons t2 more =>
          have h2 := hsends t2 (by simp)
          simp only [List.flatMap_cons, List.append_assoc] at hsplit
          exact logBody_pair ps rest h1 h2 hsplit rfl
      obtain ⟨rest, hrest⟩ := ih (ps ++ [(t1, (more ++ [t4]).headD t4)]) hrs
      refine ⟨rest, ?_⟩
      rw [forLines_yield shrinks_logBody hnl (hpair _), hrest, readRuns, List.append_assoc,
        List.singleton_append]

theorem wrAbsCalGuiFileToScipyArray_log {events : List Event} (h : ∀ e ∈ events, e.stamp.NonNeg) :
    wrAbsCalGuiFileToScipyArray (log events) =
      .ok (GuiData.ofPairs (readRuns (runs events).1 (runs events).2)) := by
  obtain ⟨hr, ht⟩ := runs_forall h
  obtain ⟨rest, hrest⟩ := forLines_runs [] hr ht
  rw [wrAbsCalGuiFileToScipyArray, log_eq]
  rw [List.nil_append] at hrest
  change (forLines logBody (GuiData.ofPairs []) _ >>= _) = _
  rw [hrest]
  rfl

/-! ## When the pairs are the right ones -/

/-- Two stamps the analysis cannot tell apart. -/
def SameStamp (a b : TimeInternal) : Prop :=
  a.seconds = b.seconds ∧
    1000 * a.nanoseconds + a.phase = 1000 * b.nanoseconds + b.phase
  deriving Decidable

/-- A line whose first two stamps are as good as its last send and its
receive. -/
def Run.Whole (r : Run) : Prop :=
  SameStamp (r.sends.headD r.recv) (r.sends.getLastD r.recv) ∧
    SameStamp ((r.sends.tail ++ [r.recv]).headD r.recv) r.recv
  deriving Decidable

/-- A line with a send on it. -/
def Run.hasSend (r : Run) : Bool := !r.sends.isEmpty

/-- **When the reader is right**: the lines before the first lone receive
are whole, no line after it holds a pair, and if there is none the log
does not end in two sends. -/
structure Paired (rs : List Run) (tail : List TimeInternal) : Prop where
  whole : ∀ r ∈ rs.takeWhile Run.hasSend, r.Whole
  lone : ∀ r ∈ rs.dropWhile Run.hasSend, r.sends = []
  tail : rs.dropWhile Run.hasSend = [] → tail.length ≤ 1

theorem fraction_inj {a b : TimeInternal} :
    a.fraction = b.fraction ↔
      1000 * a.nanoseconds + a.phase = 1000 * b.nanoseconds + b.phase := by
  have hcast : ∀ t : TimeInternal,
      t.fraction = 1e-12 * ((1000 * t.nanoseconds + t.phase : ℤ) : ℚ) := by
    intro t
    rw [TimeInternal.fraction]
    push_cast
    ring
  rw [hcast, hcast, mul_right_inj' (by norm_num), Int.cast_inj]

/-- Two pairs the analysis cannot tell apart. -/
def SamePair (p q : TimeInternal × TimeInternal) : Prop := SameStamp p.1 q.1 ∧ SameStamp p.2 q.2

theorem samePair_iff {p q : TimeInternal × TimeInternal} (hp : p.1.NonNeg ∧ p.2.NonNeg)
    (hq : q.1.NonNeg ∧ q.2.NonNeg) :
    SamePair p q ↔
      (formatD 9 p.1.seconds = formatD 9 q.1.seconds ∧ p.1.fraction = q.1.fraction) ∧
        formatD 9 p.2.seconds = formatD 9 q.2.seconds ∧ p.2.fraction = q.2.fraction := by
  rw [SamePair, SameStamp, SameStamp, formatD_inj hp.1.seconds hq.1.seconds,
    formatD_inj hp.2.seconds hq.2.seconds, fraction_inj, fraction_inj]

/-- **The arrays determine the pairs**, up to what the analysis cannot
tell apart. -/
theorem ofPairs_eq_iff {ps qs : List (TimeInternal × TimeInternal)}
    (hp : ∀ p ∈ ps, p.1.NonNeg ∧ p.2.NonNeg) (hq : ∀ q ∈ qs, q.1.NonNeg ∧ q.2.NonNeg) :
    GuiData.ofPairs ps = GuiData.ofPairs qs ↔ List.Forall₂ SamePair ps qs := by
  induction ps generalizing qs with
  | nil =>
    cases qs with
    | nil => simp
    | cons q qs => simp [GuiData.ofPairs]
  | cons p ps ih =>
    cases qs with
    | nil => simp [GuiData.ofPairs]
    | cons q qs =>
      obtain ⟨hp₁, hps⟩ := List.forall_mem_cons.1 hp
      obtain ⟨hq₁, hqs⟩ := List.forall_mem_cons.1 hq
      rw [List.forall₂_cons, samePair_iff hp₁ hq₁, ← ih hps hqs]
      simp only [GuiData.ofPairs, List.map_cons, GuiData.mk.injEq, List.cons.injEq]
      tauto

/-- The pair of a line and the pair the reader takes from it. -/
theorem samePair_whole {t1 t4 : TimeInternal} {more : List TimeInternal} :
    SamePair (t1, (more ++ [t4]).headD t4) ((t1 :: more).getLastD t4, t4) ↔
      (Run.mk (t1 :: more) t4).Whole := Iff.rfl

theorem paired_nil {tail : List TimeInternal} : Paired [] tail ↔ tail.length ≤ 1 :=
  ⟨fun h => h.tail rfl, fun h => ⟨by simp, by simp, fun _ => h⟩⟩

theorem paired_lone {t4 : TimeInternal} {rs : List Run} {tail : List TimeInternal} :
    Paired (⟨[], t4⟩ :: rs) tail ↔ ∀ r ∈ rs, r.sends = [] := by
  constructor
  · intro h r hr
    exact h.lone r (by simp [Run.hasSend, hr])
  · intro h
    refine ⟨by simp [Run.hasSend], ?_, by simp [Run.hasSend]⟩
    simpa [Run.hasSend] using h

theorem paired_cons {t1 t4 : TimeInternal} {more : List TimeInternal} {rs : List Run}
    {tail : List TimeInternal} :
    Paired (⟨t1 :: more, t4⟩ :: rs) tail ↔ (Run.mk (t1 :: more) t4).Whole ∧ Paired rs tail := by
  have htake : (⟨t1 :: more, t4⟩ :: rs).takeWhile Run.hasSend =
      ⟨t1 :: more, t4⟩ :: rs.takeWhile Run.hasSend := rfl
  have hdrop : (⟨t1 :: more, t4⟩ :: rs).dropWhile Run.hasSend = rs.dropWhile Run.hasSend := rfl
  constructor
  · rintro ⟨hwhole, hlone, htail⟩
    rw [htake, List.forall_mem_cons] at hwhole
    rw [hdrop] at hlone htail
    exact ⟨hwhole.1, hwhole.2, hlone, htail⟩
  · rintro ⟨hw, hwhole, hlone, htail⟩
    refine ⟨?_, ?_, ?_⟩
    · rw [htake, List.forall_mem_cons]
      exact ⟨hw, hwhole⟩
    · rwa [hdrop]
    · rwa [hdrop]

/-- **The reader is right exactly on paired logs.** -/
theorem forall₂_readRuns {rs : List Run} {tail : List TimeInternal} :
    List.Forall₂ SamePair (readRuns rs tail) (rs.filterMap Run.pair) ↔ Paired rs tail := by
  induction rs with
  | nil =>
    rw [paired_nil]
    rcases tail with _ | ⟨t1, _ | ⟨t4, more⟩⟩
    · simp [readRuns]
    · simp [readRuns]
    · simp [readRuns]
  | cons r rs ih =>
    rcases r with ⟨_ | ⟨t1, more⟩, t4⟩
    · -- a lone receive leaves the loop: nothing after it may be a pair
      rw [paired_lone, readRuns, List.forall₂_nil_left_iff, List.filterMap_eq_nil_iff]
      simp [Run.pair]
    · have hpair : Run.pair ⟨t1 :: more, t4⟩ = some ((t1 :: more).getLastD t4, t4) := by
        rw [Run.pair, List.getLast?_cons, List.getLastD_cons, List.getLastD_eq_getLast?]
        rfl
      rw [paired_cons, readRuns, List.filterMap_cons_some hpair, List.forall₂_cons, ih,
        samePair_whole]

/-- The stamps of the pairs are those of the lines. -/
theorem nonNeg_pairs {rs : List Run} (h : ∀ r ∈ rs, r.recv.NonNeg ∧ ∀ t ∈ r.sends, t.NonNeg) :
    ∀ q ∈ rs.filterMap Run.pair, q.1.NonNeg ∧ q.2.NonNeg := by
  intro q hq
  obtain ⟨r, hr, hpair⟩ := List.mem_filterMap.1 hq
  rw [Run.pair, Option.map_eq_some_iff] at hpair
  obtain ⟨t1, ht1, rfl⟩ := hpair
  exact ⟨(h r hr).2 t1 (List.mem_of_getLast? ht1), (h r hr).1⟩

theorem nonNeg_readRuns {rs : List Run} {tail : List TimeInternal}
    (hr : ∀ r ∈ rs, r.recv.NonNeg ∧ ∀ t ∈ r.sends, t.NonNeg) (ht : ∀ t ∈ tail, t.NonNeg) :
    ∀ p ∈ readRuns rs tail, p.1.NonNeg ∧ p.2.NonNeg := by
  induction rs with
  | nil =>
    rcases tail with _ | ⟨t1, _ | ⟨t4, more⟩⟩
    · simp [readRuns]
    · simp [readRuns]
    · simp only [readRuns, List.mem_singleton, forall_eq]
      exact ⟨ht t1 (by simp), ht t4 (by simp)⟩
  | cons r rs ih =>
    obtain ⟨⟨hrecv, hsends⟩, hrs⟩ := List.forall_mem_cons.1 hr
    rcases r with ⟨_ | ⟨t1, more⟩, t4⟩
    · simp [readRuns]
    · rw [readRuns, List.forall_mem_cons]
      refine ⟨⟨hsends t1 (by simp), ?_⟩, ih hrs⟩
      cases more with
      | nil => exact hrecv
      | cons t2 more => exact hsends t2 (by simp)

/-- **The pairs of a log**: the reader returns the pairs of the run, send
and following receive, on exactly the paired logs. -/
theorem wrAbsCalGuiFileToScipyArray_log_iff (events : List Event)
    (h : ∀ e ∈ events, e.stamp.NonNeg) :
    wrAbsCalGuiFileToScipyArray (log events) = .ok (GuiData.ofPairs (pairs events)) ↔
      Paired (runs events).1 (runs events).2 := by
  obtain ⟨hr, ht⟩ := runs_forall h
  rw [wrAbsCalGuiFileToScipyArray_log h, Except.ok.injEq, pairs_eq,
    ofPairs_eq_iff (nonNeg_readRuns hr ht) (nonNeg_pairs hr), forall₂_readRuns]

/-- A run whose last packet did not come back. -/
theorem wrAbsCalGuiFileToScipyArray_log_iff_lost :
    wrAbsCalGuiFileToScipyArray
        (log [.send ⟨1, 500, 0⟩, .recv ⟨1, 800, 200⟩ 0, .send ⟨2, 500, 0⟩]) =
      .ok (GuiData.ofPairs
        (pairs [.send ⟨1, 500, 0⟩, .recv ⟨1, 800, 200⟩ 0, .send ⟨2, 500, 0⟩])) := by
  have hrecv : (Event.recv ⟨1, 800, 200⟩ 0).stamp = ⟨1, 800, 200⟩ :=
    Event.stamp_recv (by decide) (by decide) (by decide) (by decide) (by decide)
  refine (wrAbsCalGuiFileToScipyArray_log_iff _ ?_).2 ?_
  · simp only [List.forall_mem_cons, hrecv]
    exact ⟨⟨by decide, by decide, by decide⟩, ⟨by decide, by decide, by decide⟩,
      ⟨by decide, by decide, by decide⟩, by simp⟩
  · simp only [runs, hrecv, paired_cons, paired_nil]
    exact ⟨by decide, by decide⟩

/-- **A lost packet shifts the line**: its t1 is paired with the t1 of the
send that came back. -/
theorem wrAbsCalGuiFileToScipyArray_log_ne :
    wrAbsCalGuiFileToScipyArray
        (log [.send ⟨1, 500, 0⟩, .send ⟨2, 500, 0⟩, .recv ⟨2, 800, 200⟩ 0]) ≠
      .ok (GuiData.ofPairs
        (pairs [.send ⟨1, 500, 0⟩, .send ⟨2, 500, 0⟩, .recv ⟨2, 800, 200⟩ 0])) := by
  have hrecv : (Event.recv ⟨2, 800, 200⟩ 0).stamp = ⟨2, 800, 200⟩ :=
    Event.stamp_recv (by decide) (by decide) (by decide) (by decide) (by decide)
  rw [wrAbsCalGuiFileToScipyArray_log (by
    simp only [List.forall_mem_cons, hrecv]
    exact ⟨⟨by decide, by decide, by decide⟩, ⟨by decide, by decide, by decide⟩,
      ⟨by decide, by decide, by decide⟩, by simp⟩)]
  intro h
  have hseconds := congrArg GuiData.t1Seconds (Except.ok.inj h)
  simp only [runs, readRuns, pairs, hrecv, GuiData.ofPairs, List.map_cons, List.map_nil] at hseconds
  rw [List.cons.injEq, formatD_inj (by decide) (by decide)] at hseconds
  exact absurd hseconds.1 (by decide)

end Timing

end WrCalibration
