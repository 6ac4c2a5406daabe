import WrCalibration.Common.Bytes
import WrCalibration.Common.Loop

/-!
# Timestamps of the node software

`TimeInternal` with its normalising sum and difference, and what
`wrpc_net_send` and `wrpc_net_recv` print. The loops of `ts_add` and
`ts_sub` move whole units from one field to the next.
-/

namespace WrCalibration

namespace Timing

open Python Loop

/-- `TimeInternal`: seconds, nanoseconds and picoseconds. -/
structure TimeInternal where
  seconds : ℤ
  nanoseconds : ℤ
  phase : ℤ
  deriving DecidableEq

/-- Nanoseconds to the second. -/
def ppNsecPerSec : ℕ := 1000000000

/-! ## Normalising -/

/-- `while (low >= unit) { low -= unit; high++; }` -/
def carry (unit : ℕ) [NeZero unit] (low high : ℤ) : ℤ × ℤ :=
  if (unit : ℤ) ≤ low then carry unit (low - unit) (high + 1) else (low, high)
termination_by low.toNat
decreasing_by
  have := NeZero.pos unit
  omega

/-- `while (low < 0) { low += unit; high--; }` -/
def borrow (unit : ℕ) [NeZero unit] (low high : ℤ) : ℤ × ℤ :=
  if low < 0 then borrow unit (low + unit) (high - 1) else (low, high)
termination_by (-low).toNat
decreasing_by
  have := NeZero.pos unit
  omega

instance : NeZero ppNsecPerSec := ⟨by decide⟩

/-- `ts_add` -/
def tsAdd (a b : TimeInternal) : TimeInternal :=
  let (phase, nanoseconds) := carry 1000 (a.phase + b.phase) (a.nanoseconds + b.nanoseconds)
  let (nanoseconds, seconds) := carry ppNsecPerSec nanoseconds (a.seconds + b.seconds)
  { seconds, nanoseconds, phase }

/-- `ts_sub` -/
def tsSub (a b : TimeInternal) : TimeInternal :=
  let (phase, nanoseconds) := borrow 1000 (a.phase - b.phase) (a.nanoseconds - b.nanoseconds)
  let (nanoseconds, seconds) := borrow ppNsecPerSec nanoseconds (a.seconds - b.seconds)
  { seconds, nanoseconds, phase }

theorem carry_of_lt {unit : ℕ} [NeZero unit] {low high : ℤ} (h : low < unit) :
    carry unit low high = (low, high) := by
  rw [carry, if_neg (by omega)]

theorem borrow_of_nonneg {unit : ℕ} [NeZero unit] {low high : ℤ} (h : 0 ≤ low) :
    borrow unit low high = (low, high) := by
  rw [borrow, if_neg (by omega)]

/-! ## What the loops end with

`Carries` and `Borrows` are the loops of the source as they run, pass by
pass; the functions above are where they stop. -/

section Loops

variable {unit : ℕ} [NeZero unit] {low high : ℤ} {k : ℕ} {t : ℤ × ℤ}

/-- The loop of `ts_add` on a field and the one above it. -/
def Carries (unit : ℕ) : ℤ × ℤ → ℕ → ℤ × ℤ → Prop :=
  Ends (fun s => (unit : ℤ) ≤ s.1) (fun s => (s.1 - unit, s.2 + 1))

/-- The loop of `ts_sub` on a field and the one above it. -/
def Borrows (unit : ℕ) : ℤ × ℤ → ℕ → ℤ × ℤ → Prop :=
  Ends (fun s => s.1 < 0) (fun s => (s.1 + unit, s.2 - 1))

/-- Two fields as one number of the lower one. -/
def worth (unit : ℕ) (s : ℤ × ℤ) : ℤ := s.2 * unit + s.1

theorem carry_eq_of_carries {s : ℤ × ℤ} (h : Carries unit s k t) : carry unit s.1 s.2 = t := by
  induction h with
  | done hstop => rw [carry, if_neg hstop]
  | pass hgo _ ih => rw [carry, if_pos hgo, ih]

theorem borrow_eq_of_borrows {s : ℤ × ℤ} (h : Borrows unit s k t) : borrow unit s.1 s.2 = t := by
  induction h with
  | done hstop => rw [borrow, if_neg hstop]
  | pass hgo _ ih => rw [borrow, if_pos hgo, ih]

/-- The loop of `ts_add` stops. -/
theorem carries_carry (unit : ℕ) [NeZero unit] (low high : ℤ) :
    ∃ k, Carries unit (low, high) k (carry unit low high) := by
  have hunit := NeZero.pos unit
  have hstops : ∃ k t, Carries unit (low, high) k t := by
    refine Ends.exists_of_variant (fun s => s.1.toNat) ?_ (low, high)
    intro s hgo
    simp only
    omega
  obtain ⟨k, t, h⟩ := hstops
  exact ⟨k, carry_eq_of_carries h ▸ h⟩

/-- The loop of `ts_sub` stops. -/
theorem borrows_borrow (unit : ℕ) [NeZero unit] (low high : ℤ) :
    ∃ k, Borrows unit (low, high) k (borrow unit low high) := by
  have hunit := NeZero.pos unit
  have hstops : ∃ k t, Borrows unit (low, high) k t := by
    refine Ends.exists_of_variant (fun s => (-s.1).toNat) ?_ (low, high)
    intro s hgo
    simp only
    omega
  obtain ⟨k, t, h⟩ := hstops
  exact ⟨k, borrow_eq_of_borrows h ▸ h⟩

/-- Neither loop changes what the two fields are worth. -/
theorem worth_carry (unit : ℕ) [NeZero unit] (low high : ℤ) :
    worth unit (carry unit low high) = worth unit (low, high) := by
  obtain ⟨k, h⟩ := carries_carry unit low high
  refine Ends.conserved h (f := worth unit) ?_
  intro s
  simp only [worth]
  ring

@[inherit_doc worth_carry]
theorem worth_borrow (unit : ℕ) [NeZero unit] (low high : ℤ) :
    worth unit (borrow unit low high) = worth unit (low, high) := by
  obtain ⟨k, h⟩ := borrows_borrow unit low high
  refine Ends.conserved h (f := worth unit) ?_
  intro s
  simp only [worth]
  ring

/-- A carry leaves the lower field under its unit, -/
theorem carry_lt : (carry unit low high).1 < unit := by
  obtain ⟨k, h⟩ := carries_carry unit low high
  exact not_le.1 h.not_guard

/-- and not negative if it was not. -/
theorem carry_nonneg (hlow : 0 ≤ low) : 0 ≤ (carry unit low high).1 := by
  obtain ⟨k, h⟩ := carries_carry unit low high
  refine h.invariant (I := fun s => 0 ≤ s.1) ?_ hlow
  intro s hgo _
  exact sub_nonneg.2 hgo

/-- A carry never lowers the field above, -/
theorem le_carry (unit : ℕ) [NeZero unit] (low high : ℤ) :
    high ≤ (carry unit low high).2 := by
  obtain ⟨k, h⟩ := carries_carry unit low high
  refine h.invariant (I := fun s => high ≤ s.2) ?_ le_rfl
  intro s _ hs
  simp only
  omega

/-- and a borrow leaves the lower field not negative. -/
theorem borrow_nonneg : 0 ≤ (borrow unit low high).1 := by
  obtain ⟨k, h⟩ := borrows_borrow unit low high
  exact not_lt.1 h.not_guard

end Loops

/-- The two loops of `ts_add` stop with `t`, -/
def AddEnds (a b t : TimeInternal) : Prop :=
  ∃ k l ns, Carries 1000 (a.phase + b.phase, a.nanoseconds + b.nanoseconds) k (t.phase, ns) ∧
    Carries ppNsecPerSec (ns, a.seconds + b.seconds) l (t.nanoseconds, t.seconds)

/-- and the two of `ts_sub`. -/
def SubEnds (a b t : TimeInternal) : Prop :=
  ∃ k l ns, Borrows 1000 (a.phase - b.phase, a.nanoseconds - b.nanoseconds) k (t.phase, ns) ∧
    Borrows ppNsecPerSec (ns, a.seconds - b.seconds) l (t.nanoseconds, t.seconds)

theorem addEnds_tsAdd (a b : TimeInternal) : AddEnds a b (tsAdd a b) := by
  obtain ⟨k, hphase⟩ := carries_carry 1000 (a.phase + b.phase) (a.nanoseconds + b.nanoseconds)
  obtain ⟨l, hns⟩ := carries_carry ppNsecPerSec (carry 1000 (a.phase + b.phase)
    (a.nanoseconds + b.nanoseconds)).2 (a.seconds + b.seconds)
  exact ⟨k, l, _, hphase, hns⟩

theorem subEnds_tsSub (a b : TimeInternal) : SubEnds a b (tsSub a b) := by
  obtain ⟨k, hphase⟩ := borrows_borrow 1000 (a.phase - b.phase) (a.nanoseconds - b.nanoseconds)
  obtain ⟨l, hns⟩ := borrows_borrow ppNsecPerSec (borrow 1000 (a.phase - b.phase)
    (a.nanoseconds - b.nanoseconds)).2 (a.seconds - b.seconds)
  exact ⟨k, l, _, hphase, hns⟩

/-- A timestamp in picoseconds. -/
def TimeInternal.total (t : TimeInternal) : ℤ :=
  t.seconds * 10 ^ 12 + t.nanoseconds * 1000 + t.phase

/-- Both sums and differences of timestamps are exact. -/
theorem total_tsAdd (a b : TimeInternal) : (tsAdd a b).total = a.total + b.total := by
  have hphase := worth_carry 1000 (a.phase + b.phase) (a.nanoseconds + b.nanoseconds)
  have hns := worth_carry ppNsecPerSec (carry 1000 (a.phase + b.phase)
    (a.nanoseconds + b.nanoseconds)).2 (a.seconds + b.seconds)
  simp only [worth, ppNsecPerSec] at hphase hns
  simp only [tsAdd, TimeInternal.total, ppNsecPerSec]
  push_cast at hphase hns
  linarith

@[inherit_doc total_tsAdd]
theorem total_tsSub (a b : TimeInternal) : (tsSub a b).total = a.total - b.total := by
  have hphase := worth_borrow 1000 (a.phase - b.phase) (a.nanoseconds - b.nanoseconds)
  have hns := worth_borrow ppNsecPerSec (borrow 1000 (a.phase - b.phase)
    (a.nanoseconds - b.nanoseconds)).2 (a.seconds - b.seconds)
  simp only [worth, ppNsecPerSec] at hphase hns
  simp only [tsSub, TimeInternal.total, ppNsecPerSec]
  push_cast at hphase hns
  linarith

/-- A difference has no negative field below the seconds, -/
theorem tsSub_nonneg (a b : TimeInternal) :
    0 ≤ (tsSub a b).phase ∧ 0 ≤ (tsSub a b).nanoseconds := ⟨borrow_nonneg, borrow_nonneg⟩

/-- and a sum of fields that are not negative is in range. -/
theorem tsAdd_range {a b : TimeInternal} (hphase : 0 ≤ a.phase + b.phase)
    (hns : 0 ≤ a.nanoseconds + b.nanoseconds) :
    (0 ≤ (tsAdd a b).phase ∧ (tsAdd a b).phase < 1000) ∧
      0 ≤ (tsAdd a b).nanoseconds ∧ (tsAdd a b).nanoseconds < ppNsecPerSec := by
  have hcarry := hns.trans (le_carry 1000 (a.phase + b.phase) (a.nanoseconds + b.nanoseconds))
  exact ⟨⟨carry_nonneg hphase, carry_lt⟩, carry_nonneg hcarry, carry_lt⟩

/-! ## Printing -/

/-- `%0kd` -/
def formatD (width : ℕ) (n : ℤ) : Bytes :=
  if n < 0 then ascii "-" ++ zeroPadded (width - 1) n.natAbs else zeroPadded width n.natAbs

/-- `"%09d %09d %03d"` -/
def stampText (t : TimeInternal) : Bytes :=
  formatD 9 t.seconds ++ ascii " " ++ formatD 9 t.nanoseconds ++ ascii " " ++ formatD 3 t.phase

/-- What makes the node print: a send with the hardware timestamp of the
packet, or a successful receive with its timestamp and the bitslide of
the endpoint. -/
inductive Event where
  | send (wrTs : TimeInternal)
  | recv (wrTs : TimeInternal) (bitslide : ℤ)

/-- The timestamp an event prints: t1 of a send, which has no phase, and
t4 of a receive, corrected by the bitslide. -/
def Event.stamp : Event → TimeInternal
  | send wrTs => { wrTs with phase := 0 }
  | recv wrTs bitslide =>
    let t4 := tsSub wrTs { seconds := 0, nanoseconds := 0, phase := bitslide }
    tsAdd t4 { seconds := 0, nanoseconds := 0, phase := 0 }

/-- A bitslide that the phase covers borrows nothing. -/
theorem Event.stamp_recv {wrTs : TimeInternal} {bitslide : ℤ} (hb : 0 ≤ bitslide)
    (hphase : bitslide ≤ wrTs.phase) (hphase' : wrTs.phase < 1000) (hns : 0 ≤ wrTs.nanoseconds)
    (hns' : wrTs.nanoseconds < ppNsecPerSec) :
    (recv wrTs bitslide).stamp = { wrTs with phase := wrTs.phase - bitslide } := by
  have hlow : wrTs.phase - bitslide < (1000 : ℕ) := by
    push_cast
    omega
  simp only [stamp, tsSub, tsAdd, sub_zero, add_zero, borrow_of_nonneg (sub_nonneg.2 hphase),
    borrow_of_nonneg hns, carry_of_lt hlow, carry_of_lt hns']

/-- **The corrected receive timestamp is canonical and exact**: whatever the
fields and the bitslide, all four loops stop, the phase and the
nanoseconds printed are in range, and the bitslide is what is taken off. -/
theorem Event.stamp_recv_range (wrTs : TimeInternal) (bitslide : ℤ) :
    (∃ t4, SubEnds wrTs ⟨0, 0, bitslide⟩ t4 ∧ AddEnds t4 ⟨0, 0, 0⟩ (recv wrTs bitslide).stamp) ∧
      (0 ≤ (recv wrTs bitslide).stamp.phase ∧ (recv wrTs bitslide).stamp.phase < 1000) ∧
      (0 ≤ (recv wrTs bitslide).stamp.nanoseconds ∧
        (recv wrTs bitslide).stamp.nanoseconds < 10 ^ 9) ∧
      (recv wrTs bitslide).stamp.total = wrTs.total - bitslide := by
  have hstamp : (recv wrTs bitslide).stamp = tsAdd (tsSub wrTs ⟨0, 0, bitslide⟩) ⟨0, 0, 0⟩ := rfl
  rw [hstamp]
  obtain ⟨hphase, hns⟩ := tsSub_nonneg wrTs ⟨0, 0, bitslide⟩
  obtain ⟨hphase', hns'⟩ := tsAdd_range (b := ⟨0, 0, 0⟩) (by rwa [add_zero]) (by rwa [add_zero])
  refine ⟨⟨_, subEnds_tsSub _ _, addEnds_tsAdd _ _⟩, hphase', hns', ?_⟩
  rw [total_tsAdd, total_tsSub]
  simp only [TimeInternal.total]
  ring

/-- The output of `wrpc_net_send` and of `wrpc_net_recv`: only the latter
ends the line. -/
def Event.print : Event → Bytes
  | .send wrTs => stampText (Event.send wrTs).stamp ++ ascii " "
  | .recv wrTs bitslide => stampText (Event.recv wrTs bitslide).stamp ++ [newline]

/-- The log of a run. -/
def log (events : List Event) : Bytes := events.flatMap Event.print

/-! ## Stamps that are not negative -/

/-- Fields the format prints as digits. -/
structure TimeInternal.NonNeg (t : TimeInternal) : Prop where
  seconds : 0 ≤ t.seconds
  nanoseconds : 0 ≤ t.nanoseconds
  phase : 0 ≤ t.phase

/-- A number that is not negative prints as digits. -/
theorem formatD_isDigit {k : ℕ} {n : ℤ} (h : 0 ≤ n) : ∀ b ∈ formatD k n, isDigit b = true := by
  rw [formatD, if_neg (by omega)]
  exact zeroPadded_isDigit k _

theorem ofDecimal_formatD {k : ℕ} {n : ℤ} (h : 0 ≤ n) : (ofDecimal (formatD k n) : ℤ) = n := by
  rw [formatD, if_neg (by omega), ofDecimal_zeroPadded]
  omega

theorem formatD_ne_nil {k : ℕ} {n : ℤ} (h : 0 ≤ n) : formatD k n ≠ [] := by
  rw [formatD, if_neg (by omega), zeroPadded]
  simp [decimal_ne_nil]

/-- Two printed numbers are the same text only if they are equal. -/
theorem formatD_inj {k : ℕ} {m n : ℤ} (hm : 0 ≤ m) (hn : 0 ≤ n) :
    formatD k m = formatD k n ↔ m = n := by
  constructor
  · intro h
    have := congrArg (fun s => (ofDecimal s : ℤ)) h
    simpa only [ofDecimal_formatD hm, ofDecimal_formatD hn] using this
  · rintro rfl
    rfl

end Timing

end WrCalibration
