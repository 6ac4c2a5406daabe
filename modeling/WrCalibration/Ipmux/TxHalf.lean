import WrCalibration.Ipmux.TxArbitration
import WrCalibration.Ipmux.TxDelivery
import WrCalibration.Ipmux.TxFifos

/-!
# The transmit half of ipmux

`txfifos`, `TxStreamSel` and `TxBuffers`, as `ipmux` connects them, from
the write ports of the streams to the fabric. `Stage` says where the two
machines in the middle stand with one packet, from the look for it in the
FIFOs to the last word of its headers; what is before that packet and what
is behind it is in the FIFOs and in the ring, whose invariants are those of
the parts.
-/

namespace WrCalibration

namespace Ipmux

open Clocked GenericDpram Segments TxData2Buf

variable {ram : GenericDpram txPktBufAdrsize 17} {P : TxFifoPair}

/-! ## The machine -/

/-- `txfifos` with `TxStreamSel`, and `TxBuffers`. -/
structure TxHalf (ram : GenericDpram txPktBufAdrsize 17) (P : TxFifoPair) where
  streams : TxStreams P
  buffers : TxBuffers ram

/-- The inputs of a cycle: the edges of the writers of the streams, what the CPU
wants, the registers, and the stall of the MAC. -/
structure TxHalfInput where
  writes : Fin numUdpPrts → List TxWrite := fun _ => []
  cpuTx : CpuTx := {}
  ethRegs : EthRegs
  stall : Bool := false

namespace TxHalf

variable (s : TxHalf ram P) (c : TxHalfInput)

/-- `TxStreamSel`, and the write side of the buffer. -/
abbrev sel : TxStreamSel := s.streams.sel

@[inherit_doc sel]
abbrev tx : TxWriteSide ram := s.buffers.tx

/-- What `TxBuffers` sees; `ipmux` makes no fragments. -/
def buffersInput : TxBuffersInput where
  tx := {
    cpuTx := c.cpuTx, connected := s.sel.connected, stream := s.sel.stream
    txLlData := s.sel.dout, txLlEop := s.sel.eodOut, txLlValid := s.sel.validOut
    ethRegs := c.ethRegs }
  stall := c.stall

/-- What `txfifos` and `TxStreamSel` see. -/
def streamsInput : TxStreamsInput where
  writes := c.writes
  connectReq := s.tx.sm.connectReq
  rdReqIn := s.tx.sm.txLlRdreq (s.buffers.txInput (s.buffersInput c))

/-- One clock edge. -/
def step : TxHalf ram P where
  streams := s.streams.step (s.streamsInput c)
  buffers := s.buffers.step (s.buffersInput c)

/-- The state after a reset; the buffer keeps its words. -/
def reset : TxHalf ram P where
  streams := s.streams.reset
  buffers := s.buffers.reset

/-- What the write side sees. -/
def txInput : TxInput × BitVec txPktBufAdrsize :=
  (s.buffers.txInput (s.buffersInput c), s.buffers.mac.rdAddr)

/-- A packet is committed. -/
def commits : Bool := s.buffers.commits (s.buffersInput c)

/-- The word that is read from the FIFO of the selected stream. -/
def reads : List Dbus :=
  if s.sel.state = .readUntilEOP then [(s.streams.fifos s.sel.streamPointer).txo] else []

end TxHalf

/-- **What was read from the streams**: the packets that are committed, each
with its stream, and the words of the one that is on its way. -/
structure TxLog where
  done : List (Fin numUdpPrts × List Dbus) := []
  now : List Dbus := []

namespace TxLog

variable (l : TxLog) (s : TxHalf ram P) (c : TxHalfInput) (k : Fin numUdpPrts)

/-- The log after a cycle. -/
def step : TxLog where
  done := if s.commits c then l.done ++ [(s.sel.streamPointer, l.now)] else l.done
  now := if s.commits c then [] else l.now ++ s.reads

end TxLog

/-- The packets of one stream. -/
def ofStream (k : Fin numUdpPrts) (ps : List (Fin numUdpPrts × List Dbus)) : List (List Dbus) :=
  ps.filterMap fun p => if p.1 = k then some p.2 else none

/-- What was read from one stream. -/
def TxLog.gone (l : TxLog) (k pointer : Fin numUdpPrts) : List Dbus :=
  (ofStream k l.done).flatten ++ if pointer = k then l.now else []

/-! ## The headers of a packet -/

/-- The fragment fields of a packet that is none. -/
structure Unfragmented (i : TxInput) : Prop where
  fragID : i.fragID = 0
  fragOff : i.fragOff = 0
  moreFrag : i.moreFrag = false

/-- The frame of a payload, as `ipmux` makes it. -/
def wholeFrame (regs : EthRegs) (k : Fin numUdpPrts) (ws : List Word) : List Word :=
  txFrame regs k { ethRegs := regs } ws

theorem Unfragmented.txFrame {i : TxInput} (h : Unfragmented i) (regs : EthRegs)
    (k : Fin numUdpPrts) (ws : List Word) : txFrame regs k i ws = wholeFrame regs k ws := by
  have hip : ipHeader regs i ws.length = ipHeader regs { ethRegs := regs } ws.length := by
    rw [ipHeader, ipHeader, ipHeaderNoChecks, ipHeaderNoChecks, h.fragID, h.fragOff, h.moreFrag]
  rw [wholeFrame, Ipmux.txFrame, Ipmux.txFrame, hip]

section InHeaders

variable {regs : EthRegs} {k : Fin numUdpPrts} {ws : List Word} {base : BitVec txPktBufAdrsize}
  {n : ℕ} {s : TxWriteSide ram} {c : TxInput × BitVec txPktBufAdrsize}

/-- **In the headers** of a packet, after a number of cycles. -/
inductive InHeaders (regs : EthRegs) (k : Fin numUdpPrts) (ws : List Word)
    (base : BitVec txPktBufAdrsize) : ℕ → TxWriteSide ram → Prop
  | udp {j : ℕ} {s : TxWriteSide ram} : 0 < j → j ≤ udpHdrCnt →
    UdpWriting regs k ws base j s → InHeaders regs k ws base j s
  | ip {i : TxInput} {j : ℕ} {s : TxWriteSide ram} : Unfragmented i → 0 < j → j ≤ ipHdrCnt →
    IpWriting regs k i ws base j s → InHeaders regs k ws base (udpHdrCnt + j) s
  | ipChecked {i : TxInput} {s : TxWriteSide ram} : Unfragmented i →
    IpChecked regs k i ws base s → InHeaders regs k ws base (udpHdrCnt + ipHdrCnt + 1) s
  | mac {i : TxInput} {j : ℕ} {s : TxWriteSide ram} : Unfragmented i → 0 < j → j ≤ macHdrCnt →
    MacWriting regs k i ws base j s →
    InHeaders regs k ws base (udpHdrCnt + ipHdrCnt + 1 + j) s

theorem InHeaders.le (h : InHeaders regs k ws base n s) : n ≤ headerCycles := by
  have hcycles : headerCycles = udpHdrCnt + ipHdrCnt + 1 + macHdrCnt := rfl
  cases h with
  | udp _ _ _ => omega
  | ip _ _ _ _ => omega
  | ipChecked _ _ => omega
  | mac _ _ _ _ => omega

/-- In the headers nothing is asked of the streams. -/
theorem InHeaders.busy (h : InHeaders regs k ws base n s) :
    s.sm.state ≠ .idle ∧ s.sm.state ≠ .moreData ∧ s.sm.pktPtr = base ∧ s.sm.selSm = true := by
  cases h with
  | udp _ _ h =>
    exact ⟨by rw [h.writing.state]; decide, by rw [h.writing.state]; decide, h.writing.pktPtr,
      h.writing.selSm⟩
  | ip _ _ _ h =>
    exact ⟨by rw [h.writing.state]; decide, by rw [h.writing.state]; decide, h.writing.pktPtr,
      h.writing.selSm⟩
  | ipChecked _ h => exact ⟨by rw [h.state]; decide, by rw [h.state]; decide, h.pktPtr, h.selSm⟩
  | mac _ _ _ h =>
    exact ⟨by rw [h.writing.state]; decide, by rw [h.writing.state]; decide, h.writing.pktPtr,
      h.writing.selSm⟩

/-- **One cycle of the headers**; the last one commits the frame. -/
theorem InHeaders.step (h : InHeaders regs k ws base n s) (hws : ws ≠ [])
    (hlen : payload + ws.length ≤ 2 ^ txPktBufAdrsize) (hc : Unfragmented c.1) :
    n < headerCycles ∧ InHeaders regs k ws base (n + 1) (s.step c) ∨
      n = headerCycles ∧ s.sm.state = .macWriteHeader ∧
        ∃ i, Unfragmented i ∧ Committed regs k i ws base (s.step c) := by
  have hcycles : headerCycles = udpHdrCnt + ipHdrCnt + 1 + macHdrCnt := rfl
  cases h with
  | udp hj hj' h =>
    refine Or.inl ⟨by omega, ?_⟩
    rcases Nat.eq_or_lt_of_le hj' with rfl | hlt
    · exact .ip hc (by decide) (by decide) (h.ipWriting hlen)
    · exact .udp (by omega) hlt (h.step hj hlt hlen)
  | @ip i j _ hi hj hj' h =>
    refine Or.inl ⟨by omega, ?_⟩
    rcases Nat.eq_or_lt_of_le hj' with rfl | hlt
    · exact .ipChecked hi (h.ipChecked hlen)
    · exact .ip hi (j := j + 1) (by omega) hlt (h.step hj hlt hlen)
  | ipChecked hi h =>
    exact Or.inl ⟨by decide, .mac hi (j := 1) (by decide) (by decide) (h.macWriting hlen)⟩
  | @mac i j _ hi hj hj' h =>
    rcases Nat.eq_or_lt_of_le hj' with rfl | hlt
    · exact Or.inr ⟨rfl, h.writing.state, i, hi, h.committed hws hlen⟩
    · exact Or.inl ⟨by omega, .mac hi (j := j + 1) (by omega) hlt (h.step hj hlt hlen)⟩

end InHeaders

/-! ## One packet on its way -/

/-- The way into `Idle` where the registers stay and the CPU is quiet. -/
theorem ready_of_idle {regs : EthRegs} {s : TxData2Buf} {i : TxInput}
    (hregs : i.ethRegs = regs) (hreq : i.cpuTx.request = false)
    (h : (s.step i (pseudoHeader regs)).state = .idle) :
    Ready regs (s.step i (pseudoHeader regs)) ∧
      (s.step i (pseudoHeader regs)).connectReq = true := by
  obtain ⟨s', hs'⟩ := exists_toIdle h
  rw [hs', ← hregs]
  exact ⟨ready_toIdle s' i, by simp [connectReq, toIdle, hreq]⟩

/-- Outside of `Idle` no packet is asked for. -/
theorem connectReq_of_ne {s : TxData2Buf} {i : TxInput} {p : BitVec 32}
    (h : (s.step i p).state ≠ .idle) : (s.step i p).connectReq = false := by
  have hedge := s.edge_step i p
  generalize s.step i p = s' at h hedge ⊢
  cases hedge with
  | toIdle => exact absurd rfl h
  | toMoreData => rfl
  | toAccessByCpu => rfl
  | writeWord _ _ => rfl
  | toIpWriteCheckSum => rfl

namespace TxHalf

variable {regs : EthRegs} {now : List Dbus} {s : TxHalf ram P} {c : TxHalfInput}

/-- The word between `TxStreamSel` and `tx_data2buf`. -/
def onWay (m : TxStreamSel) : List Word := if m.validOut then [m.dout] else []

/-- The stages of a packet, from the look for it to the last word of its
headers; at first the headers are read from the registers. -/
inductive Stage where
  | starting | waiting | connected | accepted | reading | last
  | heading (n : ℕ)
  deriving DecidableEq

/-- From one stage to the next, by `Full` and by the end of data at the
output of the FIFO. -/
inductive Stage.Goes (full eod : Bool) : Stage → Stage → Prop
  | start : Goes full eod .starting .waiting
  | wait : Goes full eod .waiting .waiting
  | connect : Goes full eod .waiting .connected
  | hold : full = true → Goes full eod .connected .connected
  | accept : full = false → Goes full eod .connected .accepted
  | opens : Goes full eod .accepted .reading
  | more : eod = false → Goes full eod .reading .reading
  | finish : eod = true → Goes full eod .reading .last
  | head : Goes full eod .last (.heading 1)
  | next {n : ℕ} : n < headerCycles → Goes full eod (.heading n) (.heading (n + 1))

/-- **Where the two machines stand** with the words that were read of a
packet. -/
inductive Standing (regs : EthRegs) : Stage → List Dbus → TxHalf ram P → Prop
  | starting {s : TxHalf ram P} : s.sel.state = .idle → s.sel.connected = false →
    s.tx.sm.state = .idle → Standing regs .starting [] s
  | waiting {s : TxHalf ram P} : s.sel.state = .idle ∨ s.sel.state = .searchConnect →
    s.sel.connected = false → s.sel.validOut = false → Ready regs s.tx.sm →
    s.tx.sm.connectReq = true → Standing regs .waiting [] s
  | connected {s : TxHalf ram P} : s.sel.state = .stateConnected → s.sel.connected = true →
    s.sel.validOut = false → Ready regs s.tx.sm → s.tx.sm.connectReq = true →
    Standing regs .connected [] s
  | accepted {s : TxHalf ram P} : s.sel.state = .stateConnected → s.sel.validOut = false →
    s.tx.sm.rdReq = true → Streaming regs s.tx.sm.pktPtr [] s.tx → Standing regs .accepted [] s
  | reading {s : TxHalf ram P} {now : List Dbus} {ws : List Word} :
    s.sel.state = .readUntilEOP → s.tx.sm.rdReq = true →
    Streaming regs s.tx.sm.pktPtr ws s.tx → now.map Dbus.d = ws ++ onWay s.sel →
    (∀ d ∈ now, d.eod = false) → (s.sel.eodOut && s.sel.validOut) = false →
    Standing regs .reading now s
  -- the end of data is in the output register of `TxStreamSel`
  | last {s : TxHalf ram P} {now : List Dbus} {ws : List Word} :
    s.sel.state = .idle → s.sel.validOut = true → s.sel.eodOut = true →
    s.sel.stream = s.sel.streamPointer → Streaming regs s.tx.sm.pktPtr ws s.tx →
    now.map Dbus.d = ws ++ [s.sel.dout] → IsSegment Dbus.eod now → Standing regs .last now s
  | heading {s : TxHalf ram P} {now : List Dbus} {n : ℕ} :
    s.sel.state = .idle → s.tx.sm.connectReq = false → IsSegment Dbus.eod now →
    InHeaders regs s.sel.streamPointer (now.map Dbus.d) s.tx.sm.pktPtr n s.tx →
    Standing regs (.heading n) now s

/-- What a cycle is like: the registers stay, the CPU is quiet, and the
packet that is read is not too long. -/
structure Calm (regs : EthRegs) (now : List Dbus) (s : TxHalf ram P) (c : TxHalfInput) : Prop where
  ethRegs : c.ethRegs = regs
  request : c.cpuTx.request = false
  pseudoHeader : s.tx.pseudoHeader = TxData2Buf.pseudoHeader regs
  valid : s.sel.state = .readUntilEOP → (s.streams.fifos s.sel.streamPointer).validIntern = true
  full : s.sel.state = .readUntilEOP → s.buffers.full = false
  size : payload + (now ++ s.reads).length ≤ maxReservPktBuf

/-- The end of data at the output of the FIFO of the selected stream. -/
def eodNow (s : TxHalf ram P) : Bool := (s.streams.fifos s.sel.streamPointer).txo.eod

/-- **What a cycle does to a packet**: it goes on, or its frame is left in
the buffer. -/
inductive Moved (regs : EthRegs) (stage : Stage) (now : List Dbus) (s : TxHalf ram P)
    (c : TxHalfInput) : Prop
  | on {stage' : Stage} : s.commits c = false → stage.Goes s.buffers.full s.eodNow stage' →
    Standing regs stage' (now ++ s.reads) (s.step c) → Moved regs stage now s c
  | commit : s.commits c = true → stage = .heading headerCycles → IsSegment Dbus.eod now →
    s.reads = [] →
    leftFrame s.tx (s.step c).tx = wholeFrame regs s.sel.streamPointer (now.map Dbus.d) →
    (s.step c).sel.state = .idle → Standing regs .waiting [] (s.step c) → Moved regs stage now s c

theorem sel_step : (s.step c).sel = s.sel.step (s.streams.selInput (s.streamsInput c)) := rfl

theorem tx_step : (s.step c).tx = s.tx.step (s.txInput c) := rfl

theorem sm_step (h : s.tx.pseudoHeader = pseudoHeader regs) :
    (s.step c).tx.sm = s.tx.sm.step (s.txInput c).1 (pseudoHeader regs) := by
  rw [tx_step, TxWriteSide.step, ← h]

theorem reads_of_ne (h : s.sel.state ≠ .readUntilEOP) : s.reads = [] := if_neg h

theorem not_commits (h : s.tx.sm.state ≠ .macWriteHeader) : s.commits c = false :=
  decide_eq_false fun hboth => h hboth.1

/-- Outside of a connection `TxStreamSel` passes nothing on. -/
theorem validOut_step (h : s.sel.state ≠ .readUntilEOP) : (s.step c).sel.validOut = false := by
  obtain ⟨hvalid, -⟩ := TxPath.sel_step_cases s.sel (s.streams.selInput (s.streamsInput c))
  rw [sel_step, hvalid, TxStreamSel.nextValid, if_neg h]

/-- While nothing is asked for `TxStreamSel` waits. -/
theorem sel_step_waits (hs : s.sel.state = .idle) (hreq : s.tx.sm.connectReq = false) :
    (s.step c).sel.state = .idle ∧ (s.step c).sel.connected = false ∧
      (s.step c).sel.streamPointer = s.sel.streamPointer := by
  have hstep : s.sel.step (s.streams.selInput (s.streamsInput c)) =
      { s.sel.pipeline (s.streams.selInput (s.streamsInput c)) with
        state := .idle, connected := false } := by
    have hnone : (s.streams.selInput (s.streamsInput c)).connectReq = false := hreq
    simp only [TxStreamSel.step, hs, hnone, Bool.and_false, Bool.false_eq_true, if_false]
  refine ⟨?_, ?_, ?_⟩
  all_goals rw [sel_step, hstep]
  rfl

/-- Where `tx_data2buf` comes to `Idle` it asks for a packet. -/
theorem ready_step (hc : Calm regs now s c) (h : (s.step c).tx.sm.state = .idle) :
    Ready regs (s.step c).tx.sm ∧ (s.step c).tx.sm.connectReq = true := by
  rw [sm_step hc.pseudoHeader] at h ⊢
  exact ready_of_idle hc.ethRegs hc.request h

/-- Where it comes to `More_Data` it reads. -/
theorem rdReq_step (hc : Calm regs now s c) (h : (s.step c).tx.sm.state = .moreData) :
    (s.step c).tx.sm.rdReq = true := by
  rw [sm_step hc.pseudoHeader] at h ⊢
  exact (TxPath.moreData_of_step h).2

section Step

variable (hc : Calm regs now s c)

include hc

/-- While no stream is connected `tx_data2buf` stays in `Idle`. -/
theorem idle_step (hs : s.tx.sm.state = .idle) (hconn : s.sel.connected = false) :
    Ready regs (s.step c).tx.sm ∧ (s.step c).tx.sm.connectReq = true := by
  refine ready_step hc ?_
  have hcpu : (s.txInput c).1.cpuTx.request = false := hc.request
  have hnot : (s.txInput c).1.connected = false := hconn
  rw [sm_step hc.pseudoHeader]
  simp [TxData2Buf.step, hs, hcpu, hnot, toIdle]

omit hc in
/-- From `Idle` the search begins, if there is a packet. -/
theorem sel_step_idle (hs : s.sel.state = .idle) (hconn : s.sel.connected = false) :
    ((s.step c).sel.state = .idle ∨ (s.step c).sel.state = .searchConnect) ∧
      (s.step c).sel.connected = false := by
  rw [sel_step]
  simp only [TxStreamSel.step, hs]
  split
  · exact ⟨.inr rfl, hconn⟩
  · exact ⟨.inl rfl, rfl⟩

/-- **Starting**: the header files are filled. -/
theorem Standing.starting_step (h : Standing regs .starting now s) :
    Moved regs .starting now s c := by
  cases h with
  | starting hs hconn hidle =>
    have hne : s.sel.state ≠ .readUntilEOP := by rw [hs]; decide
    obtain ⟨hready', hreq'⟩ := idle_step hc hidle hconn
    obtain ⟨hsel, hconn'⟩ := sel_step_idle (c := c) hs hconn
    refine .on (not_commits (by rw [hidle]; decide)) .start ?_
    rw [reads_of_ne hne]
    exact .waiting hsel hconn' (validOut_step hne) hready' hreq'

/-- **Waiting**: the next packet is looked for. -/
theorem Standing.waiting_step (h : Standing regs .waiting now s) : Moved regs .waiting now s c := by
  cases h with
  | waiting hs hconn _ hready _ =>
    have hne : s.sel.state ≠ .readUntilEOP := by
      rcases hs with hs | hs
      · rw [hs]; decide
      · rw [hs]; decide
    obtain ⟨hready', hreq'⟩ := idle_step hc hready.state hconn
    have hvalid := validOut_step (c := c) hne
    have hcommits : s.commits c = false := not_commits (by rw [hready.state]; decide)
    rcases hs with hs | hs
    · obtain ⟨hsel, hconn'⟩ := sel_step_idle (c := c) hs hconn
      refine .on hcommits .wait ?_
      rw [reads_of_ne hne]
      exact .waiting hsel hconn' hvalid hready' hreq'
    · by_cases hpacket : (s.streams.fifos s.sel.streamPointer).packet = true
      · have hsel : (s.step c).sel.state = .stateConnected ∧ (s.step c).sel.connected = true := by
          rw [sel_step]
          simp [TxStreamSel.step, hs, TxStreams.selInput, hpacket]
        refine .on hcommits .connect ?_
        rw [reads_of_ne hne]
        exact .connected hsel.1 hsel.2 hvalid hready' hreq'
      · have hsel : (s.step c).sel.state = .searchConnect ∧ (s.step c).sel.connected = false := by
          rw [sel_step]
          simp [TxStreamSel.step, hs, TxStreams.selInput, hpacket, TxStreamSel.pipeline, hconn]
        refine .on hcommits .wait ?_
        rw [reads_of_ne hne]
        exact .waiting (.inr hsel.1) hsel.2 hvalid hready' hreq'

/-- **Connected**: `tx_data2buf` comes as soon as the ring has room. -/
theorem Standing.connected_step (h : Standing regs .connected now s) :
    Moved regs .connected now s c := by
  cases h with
  | connected hs hconn hquiet hready hreq =>
    have hne : s.sel.state ≠ .readUntilEOP := by rw [hs]; decide
    have hsel : (s.step c).sel.state = .stateConnected ∧ (s.step c).sel.connected = true := by
      rw [sel_step]
      have hreq' : (s.streams.selInput (s.streamsInput c)).connectReq = true := hreq
      simp [TxStreamSel.step, hs, hreq']
    have hvalid := validOut_step (c := c) hne
    have hcommits : s.commits c = false := not_commits (by rw [hready.state]; decide)
    cases hfull : s.buffers.full with
    | true =>
      have hidle : (s.step c).tx.sm.state = .idle := by
        have hfull' : (s.txInput c).1.full = true := hfull
        rw [sm_step hc.pseudoHeader]
        simp [TxData2Buf.step, hready.state, hfull', toIdle]
      obtain ⟨hready', hreq'⟩ := ready_step hc hidle
      refine .on hcommits (.hold hfull) ?_
      rw [reads_of_ne hne]
      exact .connected hsel.1 hsel.2 hvalid hready' hreq'
    | false =>
      have hstreaming :=
        streaming_connect (c := s.txInput c) hready hfull hc.request hconn (.inl hquiet)
      have hptr : s.tx.sm.pktPtr = (s.step c).tx.sm.pktPtr := hstreaming.pktPtr.symm
      rw [hptr] at hstreaming
      refine .on hcommits (.accept hfull) ?_
      rw [reads_of_ne hne]
      exact .accepted hsel.1 hvalid (rdReq_step hc hstreaming.state) hstreaming

/-- **Accepted**: from the next cycle on the stream is read. -/
theorem Standing.accepted_step (h : Standing regs .accepted now s) :
    Moved regs .accepted now s c := by
  cases h with
  | accepted hs hquiet _ hstreaming =>
    have hne : s.sel.state ≠ .readUntilEOP := by rw [hs]; decide
    have hsel : (s.step c).sel.state = .readUntilEOP := by
      rw [sel_step]
      have hreq : (s.streams.selInput (s.streamsInput c)).connectReq = false :=
        hstreaming.connectReqIntern
      simp [TxStreamSel.step, hs, hreq]
    have hvalid := validOut_step (c := c) hne
    have hnone : (s.txInput c).1.txLlValid = false := hquiet
    have hnext := hstreaming.step (c := s.txInput c) (by decide) (by rw [hnone, Bool.and_false])
    rw [takenWord, hnone, if_neg (by decide), List.append_nil, ← tx_step] at hnext
    have hptr := hnext.pktPtr
    rw [← hptr] at hnext
    refine .on (not_commits (by rw [hstreaming.state]; decide)) .opens ?_
    rw [reads_of_ne hne]
    refine .reading hsel (rdReq_step hc hnext.state) hnext ?_ (by simp) ?_
    · rw [onWay, hvalid]
      rfl
    · rw [hvalid, Bool.and_false]

/-- **Reading**: the word at the output of the FIFO is taken, and the one
before it is stored. -/
theorem Standing.reading_step (h : Standing regs .reading now s) :
    Moved regs .reading now s c := by
  cases h with
  | @reading _ _ ws hs hrd hstreaming hnow heod hgoes =>
    have hreads : s.reads = [(s.streams.fifos s.sel.streamPointer).txo] := if_pos hs
    have hsize := hc.size
    have hmax : maxReservPktBuf < 2 ^ txPktBufAdrsize := by decide
    have hlen := congrArg List.length hnow
    rw [List.length_map, List.length_append] at hlen
    rw [hreads, List.length_append] at hsize
    have hnext := hstreaming.step (c := s.txInput c) (by omega) hgoes
    have htaken : takenWord (s.txInput c) = onWay s.sel := rfl
    rw [htaken, ← hnow, ← tx_step] at hnext
    have hptr := hnext.pktPtr
    rw [← hptr] at hnext
    -- the valid word moves into the output register of `TxStreamSel`
    have hfull : s.buffers.full = false := hc.full hs
    have hrdReq : s.tx.sm.txLlRdreq (s.buffers.txInput (s.buffersInput c)) = true := by
      rw [txLlRdreq, hrd, show (s.buffers.txInput (s.buffersInput c)).full = false from hfull]
      rfl
    obtain ⟨hvalid, -, -, hstream, hdout, heodOut⟩ :=
      TxPath.sel_step_cases s.sel (s.streams.selInput (s.streamsInput c))
    have hvalid' : (s.step c).sel.validOut = true := by
      rw [sel_step, hvalid, TxStreamSel.nextValid, if_pos hs, if_pos (.inr hrdReq)]
      exact hc.valid hs
    have hdout' : (s.step c).sel.dout = (s.streams.fifos s.sel.streamPointer).txo.d := hdout
    have heodOut' : (s.step c).sel.eodOut = s.eodNow := heodOut
    have hshown : (now ++ s.reads).map Dbus.d = now.map Dbus.d ++ [(s.step c).sel.dout] := by
      rw [hreads, List.map_append, List.map_singleton, hdout']
    have hcommits : s.commits c = false := not_commits (by rw [hstreaming.state]; decide)
    cases hend : s.eodNow with
    | true =>
      have hsel : (s.step c).sel.state = .idle ∧
          (s.step c).sel.streamPointer = s.sel.streamPointer := by
        have heod' : ((s.streams.selInput (s.streamsInput c)).txi s.sel.streamPointer).eod = true :=
          hend
        rw [sel_step]
        simp [TxStreamSel.step, hs, heod', TxStreamSel.pipeline]
      refine .on hcommits (.finish hend) ?_
      refine .last hsel.1 hvalid' (heodOut'.trans hend) ?_ hnext hshown ?_
      · rw [hsel.2]
        exact hstream
      · rw [hreads]
        exact isSegment_concat heod hend
    | false =>
      have hsel : (s.step c).sel.state = .readUntilEOP := by
        have heod' : ((s.streams.selInput (s.streamsInput c)).txi s.sel.streamPointer).eod =
          false := hend
        rw [sel_step]
        simp [TxStreamSel.step, hs, heod']
      refine .on hcommits (.more hend) ?_
      refine .reading hsel (rdReq_step hc hnext.state) hnext ?_ ?_ ?_
      · rw [hshown, onWay, hvalid']
        rfl
      · rw [hreads]
        intro d hd
        rcases List.mem_append.1 hd with hd | hd
        · exact heod d hd
        · rw [List.mem_singleton.1 hd]
          exact hend
      · rw [heodOut', hend, Bool.false_and]

/-- **The last word** is stored, and the headers begin. -/
theorem Standing.last_step (h : Standing regs .last now s) : Moved regs .last now s c := by
  cases h with
  | @last _ _ ws hs hvalid heod hstream hstreaming hnow hsegment =>
    have hreads : s.reads = [] := reads_of_ne (by rw [hs]; decide)
    have hsize := hc.size
    have hmax : maxReservPktBuf < 2 ^ txPktBufAdrsize := by decide
    have hlen := congrArg List.length hnow
    rw [List.length_map, List.length_append] at hlen
    rw [hreads, List.append_nil] at hsize
    have hnext := hstreaming.udpWriting (c := s.txInput c) (w := s.sel.dout) heod hvalid rfl
      hc.ethRegs hstream (by omega)
    have hsel := sel_step_waits (c := c) hs hstreaming.connectReqIntern
    have hheaders : InHeaders regs s.sel.streamPointer (now.map Dbus.d) s.tx.sm.pktPtr 1
        (s.step c).tx := by
      rw [hnow]
      exact .udp Nat.one_pos (by decide) hnext
    obtain ⟨hne, -, hptr, -⟩ := hheaders.busy
    rw [← hptr, ← hsel.2.2] at hheaders
    refine .on (not_commits (by rw [hstreaming.state]; decide)) .head ?_
    rw [hreads, List.append_nil]
    refine .heading hsel.1 ?_ hsegment hheaders
    rw [sm_step hc.pseudoHeader] at hne ⊢
    exact connectReq_of_ne hne

/-- **In the headers**, and out of them with the frame in the buffer. -/
theorem Standing.heading_step {n : ℕ} (h : Standing regs (.heading n) now s) :
    Moved regs (.heading n) now s c := by
  cases h with
  | heading hs hreq hsegment hheaders =>
    have hreads : s.reads = [] := reads_of_ne (by rw [hs]; decide)
    have hsize := hc.size
    have hmax : maxReservPktBuf < 2 ^ txPktBufAdrsize := by decide
    rw [hreads, List.append_nil] at hsize
    have hsel := sel_step_waits (c := c) hs hreq
    have hws : now.map Dbus.d ≠ [] := by
      rw [Ne, List.map_eq_nil_iff, ← List.length_eq_zero_iff]
      exact hsegment.length_pos.ne'
    rcases hheaders.step (c := s.txInput c) hws (by rw [List.length_map]; omega) ⟨rfl, rfl, rfl⟩
      with ⟨hlt, hnext⟩ | ⟨hlast, hstate, i, hi, hcommitted⟩
    · rw [← tx_step] at hnext
      obtain ⟨hne, -, hptr, -⟩ := hnext.busy
      rw [← hptr, ← hsel.2.2] at hnext
      refine .on (decide_eq_false fun hboth => hne hboth.2) (.next hlt) ?_
      rw [hreads, List.append_nil]
      refine .heading hsel.1 ?_ hsegment hnext
      rw [sm_step hc.pseudoHeader] at hne ⊢
      exact connectReq_of_ne hne
    · rw [← tx_step] at hcommitted
      obtain ⟨hready', hreq'⟩ := ready_step hc hcommitted.state
      have hvalid := validOut_step (c := c) (by rw [hs]; decide : s.sel.state ≠ .readUntilEOP)
      refine .commit (decide_eq_true ⟨hstate, hcommitted.state⟩) (by rw [hlast]) hsegment hreads
        ?_ hsel.1 (.waiting (.inl hsel.1) hsel.2.1 hvalid hready' hreq')
      rw [hcommitted.leftFrame_eq (by rw [List.length_map]; exact hsize), hi.txFrame]

/-- **One cycle of a packet**, at any stage. -/
theorem Standing.step {stage : Stage} (h : Standing regs stage now s) :
    Moved regs stage now s c := by
  cases stage with
  | starting => exact h.starting_step hc
  | waiting => exact h.waiting_step hc
  | connected => exact h.connected_step hc
  | accepted => exact h.accepted_step hc
  | reading => exact h.reading_step hc
  | last => exact h.last_step hc
  | heading n => exact h.heading_step hc

omit hc in
/-- While a packet is on its way the pointer stays. -/
theorem Standing.pointer {stage : Stage} (h : Standing regs stage now s)
    (hstart : stage ≠ .starting) (hwait : stage ≠ .waiting) :
    (s.step c).sel.streamPointer = s.sel.streamPointer := by
  have hbusy : s.sel.state = .stateConnected ∨ s.sel.state = .readUntilEOP →
      (s.step c).sel.streamPointer = s.sel.streamPointer := by
    intro hs
    rw [sel_step]
    cases TxStreamSel.edge_step s.sel (s.streams.selInput (s.streamsInput c)) with
    | search hs' _ _ =>
      rcases hs with hs | hs
      · rw [hs] at hs'
        exact absurd hs' (by decide)
      · rw [hs] at hs'
        exact absurd hs' (by decide)
    | select hs' _ _ hptr _ => exact hptr
    | connect _ _ hptr _ => exact hptr
    | read _ _ _ hptr _ => exact hptr
    | finish _ _ _ hptr _ => exact hptr
  cases h with
  | starting _ _ _ => exact absurd rfl hstart
  | waiting _ _ _ _ _ => exact absurd rfl hwait
  | connected hs _ _ _ _ => exact hbusy (.inl hs)
  | accepted hs _ _ _ => exact hbusy (.inl hs)
  | reading hs _ _ _ _ _ => exact hbusy (.inr hs)
  | last hs _ _ _ hstreaming _ _ => exact (sel_step_waits hs hstreaming.connectReqIntern).2.2
  | heading hs hreq _ _ => exact (sel_step_waits hs hreq).2.2

omit hc in
/-- So it does where a word was read or is read. -/
theorem Standing.pointer_of_ne {stage : Stage} (h : Standing regs stage now s)
    (hne : now ++ s.reads ≠ []) : (s.step c).sel.streamPointer = s.sel.streamPointer := by
  refine h.pointer ?_ ?_
  · rintro rfl
    cases h with
    | starting hs _ _ => exact hne (reads_of_ne (by rw [hs]; decide))
  · rintro rfl
    cases h with
    | waiting hs _ _ _ _ =>
      refine hne (reads_of_ne ?_)
      rcases hs with hs | hs
      · rw [hs]; decide
      · rw [hs]; decide

end Step

/-! ## What the parts of the machine need -/

/-- A word that `tx_data2buf` takes was read before. -/
theorem Standing.takes_lt {stage : Stage} {n : ℕ} (h : Standing regs stage now s)
    (hfilling : Filling n s.tx) (htakes : s.buffers.takes (s.buffersInput c) = true) :
    n < now.length := by
  rw [TxBuffers.takes, TxWriteSide.takes, Bool.and_eq_true, decide_eq_true_eq] at htakes
  obtain ⟨hstate, hvalid⟩ := htakes
  have hvalid' : s.sel.validOut = true := hvalid
  have hoffset : ∀ {ws}, Streaming regs s.tx.sm.pktPtr ws s.tx → n = ws.length := by
    intro ws hws
    have h₁ := hws.offset
    cases hfilling with
    | idle hs _ _ _ => exact absurd (hs.symm.trans hws.state) (by decide)
    | taking h₂ =>
      have h₂ := h₂.offset
      omega
    | @heading _ _ _ _ _ _ _ h₂ =>
      have hs := h₂.writing.state
      rw [hws.state] at hs
      cases h₂.isHeader <;> cases hs
    | summed h₂ => exact absurd (h₂.state.symm.trans hws.state) (by decide)
  cases h with
  | starting _ _ hs => exact absurd (hs.symm.trans hstate) (by decide)
  | waiting _ _ _ hs _ => exact absurd (hs.state.symm.trans hstate) (by decide)
  | connected _ _ _ hs _ => exact absurd (hs.state.symm.trans hstate) (by decide)
  | accepted _ hquiet _ _ => exact absurd (hquiet.symm.trans hvalid') (by decide)
  | reading _ _ hstreaming hnow _ _ =>
    have hlen := congrArg List.length hnow
    rw [onWay, hvalid', if_pos rfl, List.length_append, List.length_map] at hlen
    rw [hoffset hstreaming, hlen]
    exact Nat.lt_succ_self _
  | last _ _ _ _ hstreaming hnow _ =>
    have hlen := congrArg List.length hnow
    rw [List.length_append, List.length_map] at hlen
    rw [hoffset hstreaming, hlen]
    exact Nat.lt_succ_self _
  | heading _ _ _ hheaders => exact absurd hstate hheaders.busy.2.1

/-- While nothing is connected a packet is asked for. -/
theorem Standing.waits (h : Standing regs .waiting now s) :
    (s.sel.state = .idle ∨ s.sel.state = .searchConnect) ∧ s.tx.sm.connectReq = true := by
  cases h with
  | waiting hs _ _ _ hreq => exact ⟨hs, hreq⟩

theorem Standing.now_eq_nil (h : Standing regs .waiting now s) : now = [] := by
  cases h with
  | waiting _ _ _ _ _ => rfl

theorem Standing.state_connected (h : Standing regs .connected now s) :
    s.sel.state = .stateConnected := by
  cases h with
  | connected hs _ _ _ _ => exact hs

/-- A stream is accepted once. -/
theorem not_connected_of_accepted (h : Standing regs .accepted now s) :
    ¬ Standing regs .connected now s := by
  intro h'
  cases h with
  | accepted _ _ _ hstreaming =>
    cases h' with
    | connected _ _ _ _ hreq =>
      exact absurd (hreq.symm.trans hstreaming.connectReqIntern) (by decide)

/-- A stream is read into `More_Data`. -/
theorem Standing.moreData {stage : Stage} (h : Standing regs stage now s)
    (hs : s.sel.state = .readUntilEOP) : s.tx.sm.state = .moreData := by
  cases h with
  | starting hs' _ _ => exact absurd (hs'.symm.trans hs) (by decide)
  | waiting hs' _ _ _ _ =>
    rw [hs] at hs'
    exact absurd hs' (by decide)
  | connected hs' _ _ _ _ => exact absurd (hs'.symm.trans hs) (by decide)
  | accepted hs' _ _ _ => exact absurd (hs'.symm.trans hs) (by decide)
  | reading _ _ hstreaming _ _ _ => exact hstreaming.state
  | last hs' _ _ _ _ _ _ => exact absurd (hs'.symm.trans hs) (by decide)
  | heading hs' _ _ _ => exact absurd (hs'.symm.trans hs) (by decide)

end TxHalf

/-- **A packet that is begun finds room** to its end. -/
theorem Ringed.not_full {w : Watched ram} (h : Ringed w) (hbusy : ¬ Quiet w.buffers.tx) :
    w.buffers.full = false := by
  have hfree := h.free hbusy
  rw [h.full_eq, decide_eq_false_iff_not]
  omega

end Ipmux

end WrCalibration
