import WrCalibration.Common.AsyncFifo
import WrCalibration.Ipmux.Registers

/-!
# The words for the CPU

A read takes a word out of the FIFO in each cycle it is asked for, and an
access is asked for in two cycles: until the acknowledge, and with it. The
word of the first cycle is what the CPU obtains; a word that the FIFO shows
in the second one is taken out too, and nobody sees it. The FIFO may be any
one that does what a FIFO between two clocks does; here both are one.
-/

namespace WrCalibration

namespace Ipmux

open Clocked Wishbone

/-- `g_size` of the FIFOs of `rxfifos`. -/
def rxFifoSize : ℕ := 8192

/-- `g_almost_full_threshold` of the FIFOs of `rxfifos`. -/
def rxFifoThreshold : ℕ := 8176

/-- `generic_async_fifo`, as `rxfifos` uses it. -/
abbrev RxFifo := AsyncFifo Dbus rxFifoSize rxFifoThreshold

/-- `ipmux_regs_and_rxtxcpu` and the FIFO of the CPU in `rxfifos`, as `ipmux`
connects them. -/
structure CpuReadSide (F : RxFifo) where
  regs : Registers
  fifo : F.State

/-- The inputs of a cycle, with what `RxStreamSel` writes to the FIFO. -/
structure CpuReadInput where
  regs : RegistersInput := {}
  wrReq : Bool := false
  rxi : Dbus := ⟨0, false⟩

/-- The bus to the buffers. -/
def CpuReadInput.bus (c : CpuReadInput) : SlaveIn := c.regs.wbRxTx

variable {F : RxFifo}

namespace CpuReadSide

variable (s : CpuReadSide F) (c : CpuReadInput)

/-- What the registers see of a cycle. -/
def regsInput : RegistersInput :=
  { c.regs with
    cpuRx := F.q s.fifo
    rxEmpty := BitVec.ofBool (F.empty s.fifo) ++ c.regs.rxEmpty.extractLsb' 0 numUdpPrts }

/-- One clock edge; the FIFO is held in reset while it is flushed. -/
def step : CpuReadSide F where
  regs := s.regs.step (s.regsInput c)
  fifo :=
    if s.regs.flush.getLsbD numUdpPrts then F.reset s.fifo
    else F.both s.fifo c.wrReq c.rxi (Registers.cpuRdreq c.regs)

/-- The acknowledge of the bus to the buffers. -/
def ack : Bool := s.regs.ackTxrx

/-- What the CPU sees on the bus. -/
def dat : BitVec 32 := Registers.rxTxDat (s.regsInput c)

/-- The words that a cycle takes out of the FIFO. -/
def removed : List Dbus := (F.popped s.fifo (Registers.cpuRdreq c.regs)).toList

/-- The words that a cycle adds to it. -/
def accepted : List Dbus :=
  F.added (F.read s.fifo (Registers.cpuRdreq c.regs)) c.wrReq c.rxi

theorem ack_step : (s.step c).ack = c.bus.ackNext s.ack := rfl

end CpuReadSide

open CpuReadSide

variable {s : CpuReadSide F} {c : CpuReadInput}

/-- A word of the FIFO, as the CPU sees it. -/
def cpuData (d : Dbus) : BitVec 32 := 0#12 ++ 0#3 ++ BitVec.ofBool d.eod ++ d.d

/-- The CPU does not flush its FIFO in a cycle. -/
def Keeping (c : CpuReadInput) : Prop :=
  c.regs.wbReg.write = true → Registers.index c.regs.wbReg.adr = 0x0A →
    c.regs.wbReg.dat.getLsbD 12 = false

/-- The FIFO of the CPU is not flushed. -/
def Unflushed (s : CpuReadSide F) : Prop := s.regs.flush.getLsbD numUdpPrts = false

theorem Unflushed.step (h : Unflushed s) (hc : Keeping c) : Unflushed (s.step c) := by
  refine Registers.control_invariant (fun x => x.2.getLsbD numUdpPrts = false) h ?_
  intro hwrite hindex
  have hbit := hc hwrite hindex
  change (c.regs.wbReg.dat.extractLsb' 8 5).getLsbD 4 = false
  rw [BitVec.getLsbD_extractLsb']
  simpa using hbit

/-! ## A transfer -/

/-- An edge of the FIFO, while it is not in reset. -/
theorem Unflushed.fifo_step (h : Unflushed s) (c : CpuReadInput) :
    (s.step c).fifo = F.both s.fifo c.wrReq c.rxi c.bus.read := by
  have hflush : ¬ s.regs.flush.getLsbD numUdpPrts = true := by
    rw [h]
    exact Bool.false_ne_true
  exact if_neg hflush

/-- **What an edge does to the words**: those it takes out and those that are
held then are those that were held and the one that came in. -/
theorem Unflushed.held_step (h : Unflushed s) (c : CpuReadInput) :
    s.removed c ++ F.held (s.step c).fifo = F.held s.fifo ++ s.accepted c := by
  have hheld : F.held (s.step c).fifo =
      F.held (F.read s.fifo (Registers.cpuRdreq c.regs)) ++ s.accepted c := by
    rw [h.fifo_step]
    exact AsyncFifo.held_write
  rw [hheld, ← List.append_assoc, removed, AsyncFifo.popped_append_held]

/-- The words that a transfer takes out of the FIFO. -/
def removedIn (s : CpuReadSide F) (t : Transfer CpuReadInput) : List Dbus :=
  (trace CpuReadSide.step s t.cycles).flatMap fun x => x.1.removed x.2

/-- A read access. -/
def IsRead (t : Transfer CpuReadInput) : Prop := ∃ c ∈ t.first?, c.bus.read = true

instance (t : Transfer CpuReadInput) : Decidable (IsRead t) :=
  match h : t.first? with
  | none => isFalse fun ⟨c, hc, _⟩ => by rw [h] at hc; cases hc
  | some c => decidable_of_iff (c.bus.read = true)
      ⟨fun hr => ⟨c, h, hr⟩, fun ⟨c', hc', hr⟩ => by
        rw [h] at hc'
        rwa [Option.some.inj hc']⟩

/-- **A read pops once**: it takes one word out of the FIFO, or none if the FIFO
is empty when it begins. -/
def PopsOnce (s : CpuReadSide F) (t : Transfer CpuReadInput) : Prop :=
  IsRead t → (removedIn s t).length = if F.empty s.fifo then 0 else 1

/-- What the CPU obtains by a transfer: of a read that finds a word, the data
with the acknowledge. -/
def obtained (s : CpuReadSide F) (t : Transfer CpuReadInput) : List (BitVec 32) :=
  if IsRead t ∧ F.empty s.fifo = false then
    (trace CpuReadSide.step s t.cycles).filterMap fun x =>
      if x.1.ack then some (x.1.dat x.2) else none
  else []

/-- The FIFO is empty in the second cycle of a read, the one with the
acknowledge. -/
def EmptyWithAck (s : CpuReadSide F) (t : Transfer CpuReadInput) : Prop :=
  ∀ c ∈ t.first?, c.bus.read = true → F.empty (s.step c).fifo = true

/-- The words that come in with a transfer. -/
def acceptedIn (s : CpuReadSide F) (cs : List CpuReadInput) : List Dbus :=
  (trace CpuReadSide.step s cs).flatMap fun x => x.1.accepted x.2

section Transfer

variable {t : Transfer CpuReadInput}

theorem not_isRead_gap (c : CpuReadInput) : ¬ IsRead (.gap c) := by
  rintro ⟨d, hd, -⟩
  cases hd

theorem isRead_access {held : List CpuReadInput} :
    IsRead (.access c held) ↔ c.bus.read = true :=
  ⟨fun ⟨d, hd, hr⟩ => by rwa [Option.some.inj hd], fun hr => ⟨c, rfl, hr⟩⟩

theorem obtained_of_not_isRead (h : ¬ IsRead t) : obtained s t = [] :=
  if_neg fun hread => h hread.1

theorem obtained_of_empty (h : F.empty s.fifo = true) : obtained s t = [] := by
  refine if_neg fun hread => ?_
  rw [h] at hread
  cases hread.2

/-- What a cycle without a request takes out. -/
theorem removed_of_read (h : c.bus.read = false) : s.removed c = [] := by
  have hnone : F.popped s.fifo (Registers.cpuRdreq c.regs) = none :=
    AsyncFifo.popped_eq_none.2 (by rw [show Registers.cpuRdreq c.regs = false from h]; rfl)
  rw [removed, hnone]
  rfl

theorem length_removed (h : c.bus.read = true) :
    (s.removed c).length = if F.empty s.fifo then 0 else 1 := by
  rw [removed, AsyncFifo.length_popped, show Registers.cpuRdreq c.regs = true from h]
  cases F.empty s.fifo <;> rfl

/-- **A read pops once** if and only if the FIFO is empty with the
acknowledge. -/
theorem popsOnce_iff (hack : s.ack = false)
    (ht : t.Classic CpuReadSide.step CpuReadSide.ack CpuReadInput.bus s) :
    PopsOnce s t ↔ EmptyWithAck s t := by
  cases t with
  | gap c =>
    exact iff_of_true (fun hread => absurd hread (not_isRead_gap c)) fun d hd => by cases hd
  | access c held =>
    obtain ⟨hstrobe, c', rfl, hheld⟩ := ht.access_eq CpuReadSide.ack_step hack
    have hread' := hheld.read_eq hstrobe
    have hempty : EmptyWithAck s (.access c [c']) ↔
        (c.bus.read = true → F.empty (s.step c).fifo = true) :=
      ⟨fun h => h c rfl, fun h d hd => by obtain rfl := Option.some.inj hd; exact h⟩
    rw [hempty, PopsOnce, isRead_access]
    refine imp_congr_right fun hread => ?_
    -- the first cycle takes a word if one is shown, and the second one too
    have hremoved : removedIn s (.access c [c']) = s.removed c ++ (s.step c).removed c' := by
      simp [removedIn, Transfer.cycles, trace]
    rw [hremoved, List.length_append, length_removed hread, length_removed (hread'.trans hread),
      Nat.add_eq_left]
    cases F.empty (s.step c).fifo <;> simp

/-- The word that the first cycle of a read takes out is in the output register
when the acknowledge is up. -/
theorem obtained_access {d : Dbus} (h : Unflushed s) (hack : s.ack = false)
    (hstrobe : c.bus.strobe = true) (hread : c.bus.read = true)
    (hd : F.popped s.fifo true = some d) : obtained s (.access c [c']) = [cpuData d] := by
  have hq : F.q (s.step c).fifo = d := by
    rw [h.fifo_step, hread, AsyncFifo.both, AsyncFifo.q_write']
    exact AsyncFifo.q_read_of_popped hd
  have hup : (s.step c).ack = true := by
    rw [CpuReadSide.ack_step, hack, SlaveIn.ackNext_false, hstrobe]
  have hempty : F.empty s.fifo = false := by
    rw [Bool.eq_false_iff]
    intro hempty
    rw [AsyncFifo.popped_eq_none.2 (by rw [hempty]; rfl)] at hd
    cases hd
  have hdat : (s.step c).dat c' = cpuData d := hq ▸ rfl
  rw [obtained, if_pos ⟨isRead_access.2 hread, hempty⟩]
  simp [Transfer.cycles, trace, hack, hup, hdat]

/-- **A transfer neither loses nor doubles a word** if the FIFO is empty with the
acknowledge. -/
theorem obtained_append (h : Unflushed s) (hack : s.ack = false)
    (ht : t.Classic CpuReadSide.step CpuReadSide.ack CpuReadInput.bus s) (hempty : EmptyWithAck s t)
    (hkeep : ∀ c ∈ t.cycles, Keeping c) :
    obtained s t ++ (F.held (t.after CpuReadSide.step s).fifo).map cpuData =
      (F.held s.fifo ++ acceptedIn s t.cycles).map cpuData := by
  cases t with
  | gap c =>
    have hheld := h.held_step c
    rw [removed_of_read (SlaveIn.read_of_strobe ht), List.nil_append] at hheld
    have haccepted : acceptedIn s (Transfer.gap c).cycles = s.accepted c := by
      simp [acceptedIn, Transfer.cycles, trace]
    rw [obtained_of_not_isRead (not_isRead_gap c), List.nil_append, haccepted, ← hheld]
    rfl
  | access c held =>
    obtain ⟨hstrobe, c', rfl, hheld⟩ := ht.access_eq CpuReadSide.ack_step hack
    have hread' := hheld.read_eq hstrobe
    have h' : Unflushed (s.step c) := h.step (hkeep c (by simp [Transfer.cycles]))
    have hfirst := h.held_step c
    have hsecond := h'.held_step c'
    have haccepted : acceptedIn s (Transfer.access c [c']).cycles =
        s.accepted c ++ (s.step c).accepted c' := by
      simp [acceptedIn, Transfer.cycles, trace]
    -- the second cycle takes nothing out
    have hnone : (s.step c).removed c' = [] := by
      cases hread : c.bus.read with
      | false => exact removed_of_read (hread'.trans hread)
      | true =>
        refine List.eq_nil_of_length_eq_zero ?_
        rw [length_removed (hread'.trans hread), hempty c rfl hread]
        rfl
    have hobtained : obtained s (.access c [c']) = (s.removed c).map cpuData := by
      cases hread : c.bus.read with
      | false =>
        have hno : ¬ IsRead (.access c [c']) := by
          rw [isRead_access, hread]
          exact Bool.false_ne_true
        rw [obtained_of_not_isRead hno, removed_of_read hread]
        rfl
      | true =>
        rw [removed, show Registers.cpuRdreq c.regs = true from hread]
        cases hd : F.popped s.fifo true with
        | none =>
          have hnothing := AsyncFifo.popped_eq_none.1 hd
          rw [obtained_of_empty (by simpa using hnothing)]
          rfl
        | some d => exact obtained_access h hack hstrobe hread hd
    have hwords : s.removed c ++ F.held ((s.step c).step c').fifo =
        F.held s.fifo ++ (s.accepted c ++ (s.step c).accepted c') := by
      rw [hnone, List.nil_append] at hsecond
      rw [hsecond, ← List.append_assoc, hfirst, List.append_assoc]
    rw [hobtained, haccepted, ← hwords, List.map_append]
    rfl

end Transfer

/-! ## The runs -/

/-- The transfers of a run, each with the state it begins in. -/
def begun (s : CpuReadSide F) (ts : List (Transfer CpuReadInput)) :
    List (CpuReadSide F × Transfer CpuReadInput) :=
  trace (fun s t => Transfer.after t CpuReadSide.step s) s ts

/-- What the CPU obtains in a run. -/
def obtainedIn (s : CpuReadSide F) (ts : List (Transfer CpuReadInput)) : List (BitVec 32) :=
  (begun s ts).flatMap fun x => obtained x.1 x.2

/-- The transfers of a CPU that does not flush its FIFO, from a state in
which none is under way. -/
structure CpuReads (s : CpuReadSide F) (ts : List (Transfer CpuReadInput)) : Prop where
  unflushed : Unflushed s
  ack : s.ack = false
  transfers : Transfers CpuReadSide.step CpuReadSide.ack CpuReadInput.bus s ts
  keeping : ∀ t ∈ ts, ∀ c ∈ t.cycles, Keeping c

theorem unflushed_run {cs : List CpuReadInput} (h : Unflushed s) (hkeep : ∀ c ∈ cs, Keeping c) :
    Unflushed (run CpuReadSide.step s cs) := by
  induction cs generalizing s with
  | nil => exact h
  | cons c cs ih =>
    obtain ⟨hnow, hrest⟩ := List.forall_mem_cons.1 hkeep
    exact ih (h.step hnow) hrest

/-- The first transfer of a run, and the rest. -/
theorem CpuReads.cons {t : Transfer CpuReadInput} {ts : List (Transfer CpuReadInput)}
    (h : CpuReads s (t :: ts)) :
    t.Classic CpuReadSide.step CpuReadSide.ack CpuReadInput.bus s ∧
      CpuReads (t.after CpuReadSide.step s) ts := by
  cases h.transfers with
  | cons ht hts =>
    obtain ⟨hkeep, hkeeps⟩ := List.forall_mem_cons.1 h.keeping
    exact ⟨ht, unflushed_run h.unflushed hkeep, ht.ack_run CpuReadSide.ack_step h.ack, hts, hkeeps⟩

/-- Every read pops once if and only if the FIFO is empty with every
acknowledge. -/
theorem CpuReads.popsOnce_iff {ts : List (Transfer CpuReadInput)} (h : CpuReads s ts) :
    (∀ x ∈ begun s ts, PopsOnce x.1 x.2) ↔ ∀ x ∈ begun s ts, EmptyWithAck x.1 x.2 := by
  induction ts generalizing s with
  | nil => exact iff_of_true (fun x hx => by cases hx) fun x hx => by cases hx
  | cons t ts ih =>
    obtain ⟨ht, hts⟩ := h.cons
    rw [begun, trace, List.forall_mem_cons, List.forall_mem_cons,
      Ipmux.popsOnce_iff h.ack ht]
    exact and_congr_right fun _ => ih hts

/-- **The words of a run**: what is obtained and what is left is what was
there and what came in. -/
theorem CpuReads.obtainedIn_append {ts : List (Transfer CpuReadInput)} (h : CpuReads s ts)
    (hempty : ∀ x ∈ begun s ts, EmptyWithAck x.1 x.2) :
    obtainedIn s ts ++
        (F.held (run CpuReadSide.step s (ts.flatMap Transfer.cycles)).fifo).map cpuData =
      (F.held s.fifo ++ acceptedIn s (ts.flatMap Transfer.cycles)).map cpuData := by
  induction ts generalizing s with
  | nil => simp [obtainedIn, begun, acceptedIn, trace]
  | cons t ts ih =>
    obtain ⟨ht, hts⟩ := h.cons
    obtain ⟨hnow, hrest⟩ := List.forall_mem_cons.1 hempty
    have hone := obtained_append h.unflushed h.ack ht hnow (h.keeping t List.mem_cons_self)
    have hmany := ih hts hrest
    have hfirst : obtainedIn s (t :: ts) =
        obtained s t ++ obtainedIn (t.after CpuReadSide.step s) ts := rfl
    have haccepted : acceptedIn s ((t :: ts).flatMap Transfer.cycles) =
        acceptedIn s t.cycles ++
          acceptedIn (t.after CpuReadSide.step s) (ts.flatMap Transfer.cycles) := by
      rw [List.flatMap_cons, acceptedIn, trace_append, List.flatMap_append]
      rfl
    rw [hfirst, haccepted, List.flatMap_cons, run_append, List.append_assoc]
    change obtained s t ++ (obtainedIn (t.after CpuReadSide.step s) ts ++
      (F.held (run CpuReadSide.step (t.after CpuReadSide.step s)
        (ts.flatMap Transfer.cycles)).fifo).map cpuData) = _
    rw [hmany, List.map_append, ← List.append_assoc, hone, ← List.map_append, List.append_assoc]

/-- **Each word is read once**: every read that finds a word takes one out of
the FIFO, and what the CPU obtains are the words that were there and that
came in, in their order. -/
def ReadsOnce (s : CpuReadSide F) (ts : List (Transfer CpuReadInput)) : Prop :=
  (∀ x ∈ begun s ts, PopsOnce x.1 x.2) ∧
    obtainedIn s ts ++
        (F.held (run CpuReadSide.step s (ts.flatMap Transfer.cycles)).fifo).map cpuData =
      (F.held s.fifo ++ acceptedIn s (ts.flatMap Transfer.cycles)).map cpuData

/-- **When each word is read once**: if the FIFO is empty, to its reader, in the
cycle of every read that has the acknowledge. -/
theorem readsOnce_iff (s : CpuReadSide F) (ts : List (Transfer CpuReadInput)) (h : CpuReads s ts) :
    ReadsOnce s ts ↔ ∀ x ∈ begun s ts, EmptyWithAck x.1 x.2 := by
  constructor
  · rintro ⟨hpops, -⟩
    exact h.popsOnce_iff.1 hpops
  · intro hempty
    exact ⟨h.popsOnce_iff.2 hempty, h.obtainedIn_append hempty⟩

/-- The FIFO of the CPU, without a register on the way. -/
abbrev exactRxFifo : RxFifo := AsyncFifo.synced Dbus rxFifoSize rxFifoThreshold 0

/-- The read side with some words in the FIFO. -/
def sampleReader (ws : List Dbus) : CpuReadSide exactRxFifo where
  regs := Registers.reset
  fifo := AsyncFifo.Synced.filled ws { d := 0, eod := false }

/-- The CPU asks for a word. -/
def sampleRead : CpuReadInput where
  regs := { wbRxTx := { cyc := true, stb := true } }

theorem cpuReads_sample (ws : List Dbus) :
    CpuReads (sampleReader ws) [.access sampleRead [sampleRead]] where
  unflushed := (rfl : Registers.reset.flush.getLsbD numUdpPrts = false)
  ack := rfl
  transfers := by
    refine .cons (Transfer.classic_access CpuReadSide.ack_step rfl rfl ⟨rfl, rfl, rfl, ?_⟩) .nil
    intro hwe
    cases hwe
  keeping := by
    intro t ht c hc hwrite
    rw [List.mem_singleton.1 ht, Transfer.cycles, List.mem_cons, List.mem_singleton, or_self] at hc
    rw [hc] at hwrite
    cases hwrite

/-- One word, read. -/
theorem readsOnce_iff_one :
    ReadsOnce (sampleReader [⟨0xA1, true⟩]) [.access sampleRead [sampleRead]] ↔
      ∀ x ∈ begun (sampleReader [⟨0xA1, true⟩]) [.access sampleRead [sampleRead]],
        EmptyWithAck x.1 x.2 :=
  readsOnce_iff _ _ (cpuReads_sample [⟨0xA1, true⟩])

/-- Of two words one read takes both. -/
theorem not_readsOnce_two :
    CpuReads (sampleReader [⟨0xA1, false⟩, ⟨0xA2, true⟩])
        [.access sampleRead [sampleRead]] ∧
      ¬ ReadsOnce (sampleReader [⟨0xA1, false⟩, ⟨0xA2, true⟩])
        [.access sampleRead [sampleRead]] := by
  refine ⟨cpuReads_sample _, ?_⟩
  rintro ⟨hpops, -⟩
  have hone := hpops _ List.mem_cons_self ⟨sampleRead, rfl, rfl⟩
  revert hone
  decide

end Ipmux

end WrCalibration
