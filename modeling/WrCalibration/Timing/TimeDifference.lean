import WrCalibration.Timing.TimestampLog

/-!
# The difference of the timestamps

What `tic_gui.py` makes of a log in its mode `t1_4`. The reader keeps the
seconds apart from the rest of a timestamp, and the difference is taken
of the rest only.
-/

namespace WrCalibration

namespace Timing

open Python FileM

/-- `t_hist` in the mode `t1_4`: `gui_data["t4"] - gui_data["t1"]`. -/
def tHist (file : Bytes) : Py (List ℚ) := do
  let guiData ← wrAbsCalGuiFileToScipyArray file
  broadcast (· - ·) guiData.t4 guiData.t1

/-! ## Well-formed lines -/

/-- A number in digits. -/
structure Digits where
  text : Bytes
  ne_nil : text ≠ []
  isDigit : ∀ b ∈ text, isDigit b = true

def Digits.value (d : Digits) : ℕ := ofDecimal d.text

/-- A number as `%d` prints it. -/
def Digits.ofNat (n : ℕ) : Digits := ⟨decimal n, decimal_ne_nil n, decimal_isDigit n⟩

@[simp] theorem Digits.value_ofNat (n : ℕ) : (Digits.ofNat n).value = n := ofDecimal_decimal n

/-- The three numbers of a timestamp. -/
structure StampWords where
  seconds : Digits
  nanoseconds : Digits
  phase : Digits

/-- A line `t1_s t1_ns t1_ps t4_s t4_ns t4_ps`. -/
structure LogLine where
  t1 : StampWords
  t4 : StampWords

namespace StampWords

/-- The timestamp the numbers stand for. -/
def time (w : StampWords) : TimeInternal :=
  ⟨w.seconds.value, w.nanoseconds.value, w.phase.value⟩

def text (w : StampWords) : Bytes :=
  w.seconds.text ++ 32 :: (w.nanoseconds.text ++ 32 :: w.phase.text)

end StampWords

namespace LogLine

def text (l : LogLine) : Bytes := l.t1.text ++ 32 :: l.t4.text

/-- **The delay of a line**: t4 - t1 in seconds. -/
def delay (l : LogLine) : ℚ :=
  (l.t4.time.seconds - l.t1.time.seconds) +
    (l.t4.time.nanoseconds - l.t1.time.nanoseconds) * 1e-9 +
      (l.t4.time.phase - l.t1.time.phase) * 1e-12

/-- The file of a list of lines. -/
def file (ls : List LogLine) : Bytes := ls.flatMap fun l => l.text ++ [newline]

end LogLine

/-- What the reader returns on a list of lines. -/
def GuiData.ofLines (ls : List LogLine) : GuiData where
  t1Seconds := ls.map fun l => l.t1.seconds.text
  t1 := ls.map fun l => l.t1.time.fraction
  t4Seconds := ls.map fun l => l.t4.seconds.text
  t4 := ls.map fun l => l.t4.time.fraction

theorem Digits.not_mem (d : Digits) {c : UInt8} (hc : Python.isDigit c = false) : c ∉ d.text :=
  not_mem_of_isDigit d.isDigit hc

theorem Digits.pyFloat (d : Digits) : pyFloat d.text = .ok (d.value : ℚ) :=
  pyFloat_of_isDigit d.ne_nil d.isDigit

/-- The value of the two numbers below the seconds, also where the second
ends the line. -/
theorem StampWords.stampValue_eq (w : StampWords) {p : Bytes} (hp : strip p = strip w.phase.text) :
    stampValue w.nanoseconds.text p = .ok w.time.fraction := by
  rw [stampValue, w.nanoseconds.pyFloat, pyFloat_congr hp, w.phase.pyFloat, TimeInternal.fraction]
  rfl

/-- A line is six words. -/
theorem LogLine.splitOn_text (l : LogLine) :
    (l.text ++ [newline]).splitOn 32 =
      [l.t1.seconds.text, l.t1.nanoseconds.text, l.t1.phase.text, l.t4.seconds.text,
        l.t4.nanoseconds.text, l.t4.phase.text ++ [newline]] := by
  have hword : ∀ d : Digits, (32 : UInt8) ∉ d.text := fun d => d.not_mem (by decide)
  have hlast : (32 : UInt8) ∉ l.t4.phase.text ++ [newline] := by
    rw [List.mem_append, not_or]
    exact ⟨hword _, by decide⟩
  simp only [text, StampWords.text, List.append_assoc, List.cons_append]
  rw [List.splitOn_append_cons_self_of_not_mem (hword _),
    List.splitOn_append_cons_self_of_not_mem (hword _),
    List.splitOn_append_cons_self_of_not_mem (hword _),
    List.splitOn_append_cons_self_of_not_mem (hword _),
    List.splitOn_append_cons_self_of_not_mem (hword _), List.splitOn_eq_singleton hlast]

theorem LogLine.newline_not_mem_text (l : LogLine) : newline ∉ l.text := by
  have hword : ∀ d : Digits, newline ∉ d.text := fun d => d.not_mem (by decide)
  have hspace : newline ≠ 32 := by decide
  simp [text, StampWords.text, hword, hspace]

/-- One line is one entry of each array. -/
theorem logBody_line (l : LogLine) (ls : List LogLine) (rest : Bytes) :
    logBody (l.text ++ [newline]) (GuiData.ofLines ls) rest =
      .ok (.yield (GuiData.ofLines (ls ++ [l])), rest) := by
  rw [logBody_six _ rest l.splitOn_text (l.t1.stampValue_eq rfl)
    (l.t4.stampValue_eq (strip_append_newline _))]
  simp only [GuiData.ofLines, List.map_append]
  rfl

theorem forLines_logLines (ls done : List LogLine) :
    forLines logBody (GuiData.ofLines done) (LogLine.file ls) =
      .ok (GuiData.ofLines (done ++ ls), []) := by
  induction ls generalizing done with
  | nil =>
    rw [List.append_nil]
    exact forLines_nil
  | cons l ls ih =>
    have hfile : LogLine.file (l :: ls) = l.text ++ newline :: LogLine.file ls := by
      simp [LogLine.file]
    rw [hfile, forLines_yield shrinks_logBody l.newline_not_mem_text (logBody_line l done _), ih,
      List.append_assoc, List.singleton_append]

/-- The reader takes well-formed lines as they are. -/
theorem wrAbsCalGuiFileToScipyArray_file (ls : List LogLine) :
    wrAbsCalGuiFileToScipyArray (LogLine.file ls) = .ok (GuiData.ofLines ls) := by
  have hrun := forLines_logLines ls []
  rw [List.nil_append] at hrun
  rw [wrAbsCalGuiFileToScipyArray]
  change (forLines logBody (GuiData.ofLines []) _ >>= _) = _
  rw [hrun]
  rfl

/-! ## The difference -/

/-- **The seconds do not count**: the difference is that of the fractions. -/
theorem tHist_file (ls : List LogLine) :
    tHist (LogLine.file ls) =
      .ok (ls.map fun l => l.t4.time.fraction - l.t1.time.fraction) := by
  rw [tHist, wrAbsCalGuiFileToScipyArray_file]
  change broadcast _ (GuiData.ofLines ls).t4 (GuiData.ofLines ls).t1 = _
  rw [broadcast_of_length_eq _ (by simp [GuiData.ofLines])]
  simp [GuiData.ofLines, List.zipWith_map, List.zipWith_self]

/-- A line's difference misses the difference of its seconds. -/
theorem LogLine.delay_eq (l : LogLine) :
    l.delay = (l.t4.seconds.value - l.t1.seconds.value : ℚ) +
      (l.t4.time.fraction - l.t1.time.fraction) := by
  rw [delay, TimeInternal.fraction, TimeInternal.fraction]
  simp only [StampWords.time, Int.cast_natCast]
  ring

/-- **The difference is t4 - t1 exactly on the logs none of whose pairs
straddles a second.** -/
theorem tHist_eq_delay_iff (ls : List LogLine) :
    tHist (LogLine.file ls) = .ok (ls.map LogLine.delay) ↔
      ∀ l ∈ ls, l.t4.seconds.value = l.t1.seconds.value := by
  rw [tHist_file, Except.ok.injEq, List.map_inj_left]
  refine forall₂_congr fun l _ => ?_
  rw [l.delay_eq, eq_comm, add_eq_right, sub_eq_zero, Nat.cast_inj]

/-- The pair of a pulse sent 100 ns before a second and received 200 ns
after it. -/
def straddling : LogLine where
  t1 := ⟨.ofNat 1, .ofNat 999999900, .ofNat 0⟩
  t4 := ⟨.ofNat 2, .ofNat 200, .ofNat 0⟩

/-- **A second is lost**: 300 ns are taken for 300 ns less a second. -/
theorem tHist_straddling :
    straddling.delay = 300e-9 ∧ tHist (LogLine.file [straddling]) = .ok [300e-9 - 1] ∧
      tHist (LogLine.file [straddling]) ≠ .ok ([straddling].map LogLine.delay) := by
  have ht1 : straddling.t1.time = ⟨1, 999999900, 0⟩ := by simp [straddling, StampWords.time]
  have ht4 : straddling.t4.time = ⟨2, 200, 0⟩ := by simp [straddling, StampWords.time]
  have hdelay : straddling.delay = 300e-9 := by
    rw [LogLine.delay, ht1, ht4]
    norm_num
  have hhist : tHist (LogLine.file [straddling]) = .ok [300e-9 - 1] := by
    rw [tHist_file, List.map_singleton, ht1, ht4, TimeInternal.fraction, TimeInternal.fraction]
    norm_num
  refine ⟨hdelay, hhist, ?_⟩
  rw [hhist, List.map_singleton, hdelay]
  norm_num

end Timing

end WrCalibration
