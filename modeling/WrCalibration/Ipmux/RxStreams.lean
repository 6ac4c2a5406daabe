import WrCalibration.Ipmux.RxResync

/-!
# One stream at a time

The stream of a frame is the default one until its port is looked up, and
each register that holds the port adds a bit. With one bit set the full flag
that the machine sees is that of the stream it writes to. With two, it sees
the flag of one of them and writes to both.
-/

namespace WrCalibration

namespace Ipmux

open Clocked RxBuf2Data GenericDpram

variable {ram : GenericDpram rxPktBufAdrsize 17}

/-- Exactly one bit is set. -/
def OneHot (stream : Streams) : Prop := ∃! k, stream k = true

theorem oneHot_defaultStream : OneHot defaultStream :=
  ⟨Fin.last numUdpPrts, decide_eq_true rfl, fun _ hk => of_decide_eq_true hk⟩

/-- The one stream that is selected gives its flag. -/
theorem fullout_of_oneHot {stream : Streams} (full : Streams) (h : OneHot stream)
    {k : Fin (numUdpPrts + 1)} (hk : stream k = true) : fullout stream full = full k := by
  rw [fullout]
  cases hfind : (List.finRange (numUdpPrts + 1)).find? stream with
  | none => exact absurd hk (List.find?_eq_none.1 hfind k (List.mem_finRange k))
  | some k' =>
    have hk' : stream k' = true := List.find?_some hfind
    rw [h.unique hk' hk]

/-! ## Picking the stream -/

/-- No two registers hold the destination port of the frame. -/
def PortUnique (s : RxBuf2Data) (regs : EthRegs) : Prop :=
  ∀ k k', s.portStreams regs k = true → s.portStreams regs k' = true → k = k'

/-- **The port picks one stream** if and only if no two registers hold it. -/
theorem oneHot_pickStream (s : RxBuf2Data) (regs : EthRegs) :
    OneHot (s.pickStream regs).streamIntern ↔ PortUnique s regs := by
  have hport : ∀ k : Fin numUdpPrts,
      (s.pickStream regs).streamIntern k.castSucc = s.portStreams regs k := fun k => by
    simp only [pickStream, Fin.lastCases_castSucc]
  have hlast : (s.pickStream regs).streamIntern (Fin.last numUdpPrts) =
      !(List.finRange numUdpPrts).any (s.portStreams regs) := by
    simp only [pickStream, Fin.lastCases_last]
  constructor
  · intro hone k k' hk hk'
    rw [← hport] at hk hk'
    exact Fin.castSucc_injective _ (hone.unique hk hk')
  · intro hunique
    cases hfound : (List.finRange numUdpPrts).any (s.portStreams regs) with
    | true =>
      obtain ⟨k, -, hk⟩ := List.any_eq_true.1 hfound
      refine ⟨k.castSucc, (hport k).trans hk, fun j hj => ?_⟩
      induction j using Fin.lastCases with
      | last =>
        rw [hlast, hfound] at hj
        cases hj
      | cast j =>
        rw [hport] at hj
        rw [hunique j k hj hk]
    | false =>
      refine ⟨Fin.last numUdpPrts, hlast.trans (by rw [hfound]; rfl), fun j hj => ?_⟩
      induction j using Fin.lastCases with
      | last => rfl
      | cast j =>
        rw [hport] at hj
        exact absurd hj (List.any_eq_false.1 hfound j (List.mem_finRange j))

/-! ## The machine -/

/-- One stream is selected, and nothing is written before the transfers. -/
structure Selecting (s : RxBuf2Data) : Prop where
  oneHot : OneHot s.streamIntern
  quiet : s.state ≠ .transferData → s.state ≠ .transferOtherData → s.wrReqIntern = false

theorem selecting_initialise (s : RxBuf2Data) : Selecting s.initialise :=
  ⟨oneHot_defaultStream, fun _ _ => rfl⟩

/-- A state that is not a transfer. -/
theorem Selecting.quiet_of {s : RxBuf2Data} (h : Selecting s) {a : RxState} (hs : s.state = a)
    (ha : a ≠ .transferData ∧ a ≠ .transferOtherData) : s.wrReqIntern = false := by
  subst hs
  exact h.quiet ha.1 ha.2

/-- One of two such states. -/
theorem Selecting.quiet_or {s : RxBuf2Data} (h : Selecting s) {a b : RxState}
    (hs : s.state = a ∨ s.state = b)
    (hab : ∀ x ∈ [a, b], x ≠ .transferData ∧ x ≠ .transferOtherData) : s.wrReqIntern = false := by
  obtain ⟨ha, hb⟩ := List.forall_mem_cons.1 hab
  rcases hs with hs | hs
  · exact h.quiet_of hs ha
  · exact h.quiet_of hs (hb b List.mem_cons_self)

/-- A transfer writes only if the flag is down, and keeps the stream. -/
theorem transferData_written (s : RxBuf2Data) (din : Word) (full : Bool) :
    (s.transferData din full).streamIntern = s.streamIntern ∧
      ((s.transferData din full).wrReqIntern = true → full = false) := by
  unfold transferData
  cases full with
  | true => exact ⟨rfl, fun h => by cases h⟩
  | false => exact ⟨rfl, fun _ => rfl⟩

@[inherit_doc transferData_written]
theorem transferOtherData_written (s : RxBuf2Data) (full : Bool) :
    (s.transferOtherData full).streamIntern = s.streamIntern ∧
      ((s.transferOtherData full).wrReqIntern = true → full = false) := by
  unfold transferOtherData
  cases full with
  | true => exact ⟨rfl, fun h => by cases h⟩
  | false => exact ⟨rfl, fun _ => rfl⟩

/-- The condition on a cycle in which the port of a frame is looked up. -/
def PortChecked (s : RxBuf2Data) (regs : EthRegs) : Prop :=
  s.state = .headerChecks → s.errorVector = 0 → PortUnique s regs

/-- **One edge**: one stream stays selected if the port is unique, -/
theorem Selecting.step {s : RxBuf2Data} (h : Selecting s) {empty full eofIn : Bool} {din : Word}
    {regs : EthRegs} (hport : PortChecked s regs) :
    Selecting (s.step empty full eofIn din regs) := by
  have hedge := s.edge_step empty full eofIn din regs
  generalize s.step empty full eofIn din regs = s' at hedge ⊢
  cases hedge with
  | initialise => exact selecting_initialise _
  | startMemAcc hs => exact ⟨h.oneHot, fun _ _ => h.quiet_or hs (by decide)⟩
  | readHeader hs => exact ⟨h.oneHot, fun _ _ => h.quiet_or hs (by decide)⟩
  | headersRead hs => exact ⟨oneHot_defaultStream, fun _ _ => h.quiet_of hs (by decide)⟩
  | pickStream hs herr =>
    exact ⟨(oneHot_pickStream s regs).2 (hport hs herr), fun _ _ => h.quiet_of hs (by decide)⟩
  | transferData =>
    refine ⟨?_, fun hne => absurd (s.state_transferData din full) hne⟩
    rw [(transferData_written s din full).1]
    exact h.oneHot
  | transferOtherData =>
    refine ⟨?_, fun _ hne => absurd (s.state_transferOtherData full) hne⟩
    rw [(transferOtherData_written s full).1]
    exact h.oneHot

/-- and what it schedules is for a stream with its flag down. -/
theorem Selecting.written {s : RxBuf2Data} (h : Selecting s) {empty eofIn : Bool} {full : Streams}
    {din : Word} {regs : EthRegs}
    (hwr : (s.step empty (fullout s.streamIntern full) eofIn din regs).wrReqIntern = true)
    {k : Fin (numUdpPrts + 1)}
    (hk : (s.step empty (fullout s.streamIntern full) eofIn din regs).streamIntern k = true) :
    full k = false := by
  have hedge := s.edge_step empty (fullout s.streamIntern full) eofIn din regs
  generalize s.step empty (fullout s.streamIntern full) eofIn din regs = s' at hwr hk hedge
  cases hedge with
  | initialise => cases hwr
  | startMemAcc hs => exact absurd hwr (Bool.eq_false_iff.1 (h.quiet_or hs (by decide)))
  | readHeader hs => exact absurd hwr (Bool.eq_false_iff.1 (h.quiet_or hs (by decide)))
  | headersRead hs => exact absurd hwr (Bool.eq_false_iff.1 (h.quiet_of hs (by decide)))
  | pickStream hs _ => exact absurd hwr (Bool.eq_false_iff.1 (h.quiet_of hs (by decide)))
  | transferData =>
    obtain ⟨hstream, hfull⟩ := transferData_written s din (fullout s.streamIntern full)
    rw [hstream] at hk
    rw [← fullout_of_oneHot full h.oneHot hk]
    exact hfull hwr
  | transferOtherData =>
    obtain ⟨hstream, hfull⟩ := transferOtherData_written s (fullout s.streamIntern full)
    rw [hstream] at hk
    rw [← fullout_of_oneHot full h.oneHot hk]
    exact hfull hwr

/-! ## The runs -/

/-- **The stream selection in a cycle**: one stream is selected, and a word
is scheduled for a stream only if its flag is down at the edge. -/
def SelectsOne (c : RxReadSide ram × RxInput) : Prop :=
  OneHot c.1.sm.streamIntern ∧
    ((c.1.step c.2).sm.wrReqIntern = true →
      ∀ k, (c.1.step c.2).sm.streamIntern k = true → c.2.full k = false)

theorem selectsOne_of_selecting {s : RxReadSide ram} {i : RxInput} (h : Selecting s.sm) :
    SelectsOne (s, i) :=
  ⟨h.oneHot, fun hwr _ hk => h.written hwr hk⟩

/-- An edge that leaves one stream selected has looked up a port that is
unique. -/
theorem portChecked_of_oneHot {s : RxReadSide ram} {i : RxInput}
    (h : OneHot (s.step i).sm.streamIntern) : PortChecked s.sm i.ethRegs := by
  intro hstate herr
  rw [← oneHot_pickStream]
  have hstep : (s.step i).sm = s.sm.pickStream i.ethRegs := by
    change s.sm.step _ _ _ _ _ = _
    simp only [RxBuf2Data.step, hstate]
    rw [if_neg (not_not.2 herr)]
  rwa [← hstep]

/-- The first state of a run is one of its cycles, or the last one. -/
theorem oneHot_first {s : RxReadSide ram} {ins : List RxInput}
    (htrace : ∀ c ∈ trace RxReadSide.step s ins, SelectsOne c)
    (hlast : OneHot (run RxReadSide.step s ins).sm.streamIntern) : OneHot s.sm.streamIntern := by
  cases ins with
  | nil => exact hlast
  | cons i ins => exact (htrace (s, i) List.mem_cons_self).1

/-- **The stream selection over a run**, from any state with one stream
selected. -/
theorem selectsOne_iff_of_selecting {s : RxReadSide ram} (h : Selecting s.sm)
    (ins : List RxInput) :
    ((∀ c ∈ trace RxReadSide.step s ins, SelectsOne c) ∧
      OneHot (run RxReadSide.step s ins).sm.streamIntern) ↔
        ∀ c ∈ trace RxReadSide.step s ins, PortChecked c.1.sm c.2.ethRegs := by
  induction ins generalizing s with
  | nil =>
    refine iff_of_true ⟨?_, h.oneHot⟩ ?_
    · intro c hc
      cases hc
    · intro c hc
      cases hc
  | cons i ins ih =>
    rw [run_cons, trace, List.forall_mem_cons, and_assoc, List.forall_mem_cons]
    constructor
    · rintro ⟨-, htrace, hlast⟩
      have hport := portChecked_of_oneHot (oneHot_first htrace hlast)
      exact ⟨hport, (ih (h.step hport)).1 ⟨htrace, hlast⟩⟩
    · rintro ⟨hport, hrest⟩
      exact ⟨selectsOne_of_selecting h, (ih (h.step hport)).2 hrest⟩

/-- **When one stream is selected** in every cycle of a run, and nothing
scheduled for a stream that is full: if no two registers hold the
destination port of a frame without errors when it is looked up. -/
theorem selectsOne_iff (s : RxReadSide ram) (ins : List RxInput) :
    ((∀ c ∈ trace RxReadSide.step s.reset ins, SelectsOne c) ∧
      OneHot (run RxReadSide.step s.reset ins).sm.streamIntern) ↔
        ∀ c ∈ trace RxReadSide.step s.reset ins, PortChecked c.1.sm c.2.ethRegs :=
  selectsOne_iff_of_selecting (selecting_initialise _) ins

/-- Cycles with the registers as they are after a reset. -/
def sampleResetCycle : RxInput where
  ethRegs := {
    macMod := 0, macSrv := 0, ipMod := 0, ipSrv := 0, udpSrvPrt := fun _ => 0
    udpModPrt := fun _ => 0 }

/-- A frame to port zero before any register is written selects four
streams. -/
theorem not_selectsOne_reset :
    ¬ ((∀ c ∈ trace RxReadSide.step (sampleReadSide (sampleHeader.set 18 0 ++ [0xA1])).reset
        (List.replicate (payload + 3) sampleResetCycle), SelectsOne c) ∧
      OneHot (run RxReadSide.step (sampleReadSide (sampleHeader.set 18 0 ++ [0xA1])).reset
        (List.replicate (payload + 3) sampleResetCycle)).sm.streamIntern) := by
  rintro ⟨-, hone⟩
  have htwo : (0 : Fin (numUdpPrts + 1)) = 1 :=
    hone.unique (by decide +kernel) (by decide +kernel)
  revert htwo
  decide

end Ipmux

end WrCalibration
