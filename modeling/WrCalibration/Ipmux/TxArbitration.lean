import WrCalibration.Ipmux.TxData2Buf
import WrCalibration.Ipmux.TxStreamSel

/-!
# Streams and CPU on the way to the transmit buffer

`TxStreamSel` and `tx_data2buf`, as `ipmux` connects them. The first takes
a fallen `ConnectReq` for the beginning of a packet, but it also falls
when the CPU is served: then the words of a stream are read and go
nowhere. Where that does not happen, and `Full` does not rise while a
packet is read, every word that is read is stored in the next cycle
(`stored_eq_consumed`).
-/

namespace WrCalibration

namespace Ipmux

open Clocked

/-- `TxStreamSel` and the write side of `TxBuffers`. -/
structure TxPath (ram : GenericDpram txPktBufAdrsize 17) where
  sel : TxStreamSel
  tx : TxWriteSide ram

/-- The inputs of a cycle: those of the CPU, the full flag, the outputs of
`txfifos`, and the read address of the packet buffer. -/
structure TxPathInput where
  cpuTx : CpuTx := {}
  full : Bool := false
  ethRegs : EthRegs
  packet : Fin numUdpPrts → Bool := fun _ => false
  txi : Fin numUdpPrts → Dbus := fun _ => { d := 0, eod := false }
  validIn : Fin numUdpPrts → Bool := fun _ => false
  rdAddr : BitVec txPktBufAdrsize := 0

namespace TxPath

variable {ram : GenericDpram txPktBufAdrsize 17} (s : TxPath ram) (c : TxPathInput)

/-- What `tx_data2buf` sees; there are no fragments. -/
def txInput : TxInput where
  cpuTx := c.cpuTx
  connected := s.sel.connected
  full := c.full
  stream := s.sel.stream
  txLlData := s.sel.dout
  txLlEop := s.sel.eodOut
  txLlValid := s.sel.validOut
  ethRegs := c.ethRegs

/-- What `TxStreamSel` sees. -/
def selInput : TxStreamInput where
  packet := c.packet
  connectReq := s.tx.sm.connectReq
  rdReqIn := s.tx.sm.txLlRdreq (s.txInput c)
  txi := c.txi
  validIn := c.validIn

/-- One clock edge. -/
def step : TxPath ram where
  sel := s.sel.step (s.selInput c)
  tx := s.tx.step (s.txInput c, c.rdAddr)

/-- The state after a reset. -/
def reset : TxPath ram := { s with sel := TxStreamSel.reset, tx.sm := s.tx.sm.reset }

/-- The word that is read in a cycle from the data FIFO of a stream. -/
def consumed (c : TxPath ram × TxPathInput) : Option (Fin numUdpPrts × Dbus) :=
  let k := c.1.sel.streamPointer
  if c.1.sel.rdReqOut k && c.2.validIn k then some (k, c.2.txi k) else none

/-- The word of a stream that is written in a cycle to the packet buffer. -/
def stored (c : TxPath ram × TxPathInput) : Option (Fin numUdpPrts × Dbus) :=
  let (we, eop, d) := txWrDataSrcSel c.1.tx.sm (c.1.txInput c.2)
  if c.1.tx.sm.state = .moreData ∧ we = true then some (c.1.sel.stream, { d, eod := eop }) else none

/-! ## The condition -/

/-- **An undisturbed cycle.** The CPU has not been served between the
connection of a stream and the first read of it, and `Full` is down where
a word is read. -/
structure Undisturbed (c : TxPath ram × TxPathInput) : Prop where
  connect : c.1.sel.state = .stateConnected → c.1.tx.sm.connectReq = false →
    c.1.tx.sm.state = .moreData ∨
      c.1.tx.sm.state = .idle ∧ c.2.full = false ∧ c.2.cpuTx.request = false
  read : c.1.sel.state = .readUntilEOP → c.2.validIn c.1.sel.streamPointer = true →
    c.2.full = false

instance (c : TxPath ram × TxPathInput) : Decidable (Undisturbed c) :=
  decidable_of_iff
    ((c.1.sel.state = .stateConnected → c.1.tx.sm.connectReq = false →
      c.1.tx.sm.state = .moreData ∨
        c.1.tx.sm.state = .idle ∧ c.2.full = false ∧ c.2.cpuTx.request = false) ∧
    (c.1.sel.state = .readUntilEOP → c.2.validIn c.1.sel.streamPointer = true → c.2.full = false))
    ⟨fun h => ⟨h.1, h.2⟩, fun h => ⟨h.connect, h.read⟩⟩

/-! ## The invariant -/

/-- Every way into `More_Data` opens the buffer to the stream. -/
theorem moreData_of_step {s : TxData2Buf} {i : TxInput} {p : BitVec 32}
    (h : (s.step i p).state = .moreData) :
    (s.step i p).selSm = false ∧ (s.step i p).rdReq = true := by
  have hedge := s.edge_step i p
  generalize s.step i p = s' at h hedge ⊢
  cases hedge with
  | toIdle => exact absurd h (by simp [TxData2Buf.toIdle])
  | toMoreData => exact ⟨rfl, rfl⟩
  | toAccessByCpu => exact absurd h (by simp [TxData2Buf.toAccessByCpu])
  | writeWord _ hne => exact absurd h hne
  | toIpWriteCheckSum => exact absurd h (by simp [TxData2Buf.toIpWriteCheckSum])

/-- **The two machines agree**: while a stream is read, and while a word
is on its way, `tx_data2buf` takes the words. -/
structure Linked (s : TxPath ram) : Prop where
  handshake : s.sel.Handshake
  connected : s.sel.state = .stateConnected → s.sel.connected = true
  reading : s.sel.state = .readUntilEOP → s.tx.sm.state = .moreData
  goesOn : s.sel.state = .readUntilEOP → (s.sel.eodOut && s.sel.validOut) = false
  valid : s.sel.validOut = true → s.tx.sm.state = .moreData
  moreData : s.tx.sm.state = .moreData → s.tx.sm.selSm = false ∧ s.tx.sm.rdReq = true

variable {s c}

theorem linked_reset : Linked s.reset where
  handshake := TxStreamSel.handshake_reset
  connected := nofun
  reading := nofun
  goesOn := nofun
  valid := nofun
  moreData := nofun

/-- While no packet ends `More_Data` is kept. -/
theorem moreData_step (h : s.tx.sm.state = .moreData)
    (hgo : (s.sel.eodOut && s.sel.validOut) = false) : (s.step c).tx.sm.state = .moreData := by
  simp [step, TxWriteSide.step, TxData2Buf.step, h, txInput, hgo, TxData2Buf.toMoreData]

/-- What `TxStreamSel` does at an edge, in the terms of the two machines. -/
theorem sel_step_cases (s : TxStreamSel) (i : TxStreamInput) :
    (s.step i).validOut = s.nextValid i ∧
    ((s.step i).state = .stateConnected → (s.step i).connected = true) ∧
    ((s.step i).state = .readUntilEOP →
      s.state = .stateConnected ∧ i.connectReq = false ∨
      s.state = .readUntilEOP ∧ (i.txi s.streamPointer).eod = false) ∧
    (s.step i).stream = s.streamPointer ∧ (s.step i).dout = (i.txi s.streamPointer).d ∧
    (s.step i).eodOut = (i.txi s.streamPointer).eod := by
  cases hs : s.state with
  | idle =>
    simp only [TxStreamSel.step, hs]
    split
    · exact ⟨rfl, by simp, by simp, rfl, rfl, rfl⟩
    · exact ⟨rfl, by simp, by simp, rfl, rfl, rfl⟩
  | searchConnect =>
    simp only [TxStreamSel.step, hs]
    split
    · exact ⟨rfl, fun _ => rfl, by simp, rfl, rfl, rfl⟩
    · exact ⟨rfl, by simp, by simp, rfl, rfl, rfl⟩
  | stateConnected =>
    simp only [TxStreamSel.step, hs]
    split
    · rename_i hreq
      exact ⟨rfl, by simp, fun _ => .inl ⟨trivial, by simpa using hreq⟩,
        rfl, rfl, rfl⟩
    · exact ⟨rfl, fun _ => rfl, by simp, rfl, rfl, rfl⟩
  | readUntilEOP =>
    simp only [TxStreamSel.step, hs]
    split
    · exact ⟨rfl, by simp, by simp, rfl, rfl, rfl⟩
    · rename_i heod
      exact ⟨rfl, by simp, fun _ => .inr ⟨trivial, by simpa using heod⟩,
        rfl, rfl, rfl⟩

/-- **An undisturbed cycle keeps the two machines linked.** -/
theorem Linked.step (h : Linked s) (hc : Undisturbed (s, c)) : Linked (s.step c) := by
  obtain ⟨hvalid, hconnected, hreading, -, -, heodOut⟩ := sel_step_cases s.sel (s.selInput c)
  have hmore : (s.step c).tx.sm.state = .moreData →
      (s.step c).tx.sm.selSm = false ∧ (s.step c).tx.sm.rdReq = true := moreData_of_step
  refine ⟨h.handshake.step _, hconnected, ?_, ?_, ?_, hmore⟩
  · intro hread
    rcases hreading hread with ⟨hs, hreq⟩ | ⟨hs, _⟩
    · have hquiet := h.handshake.quiet hs
      rcases hc.connect hs hreq with htx | ⟨htx, hfull, hcpu⟩
      · exact moreData_step htx (by rw [hquiet, Bool.and_false])
      · change s.tx.sm.state = .idle at htx
        change c.full = false at hfull
        change c.cpuTx.request = false at hcpu
        simp [TxPath.step, TxWriteSide.step, TxData2Buf.step, htx, txInput, hfull, hcpu,
          h.connected hs, TxData2Buf.toMoreData]
    · exact moreData_step (h.reading hs) (h.goesOn hs)
  · intro hread
    change ((s.sel.step (s.selInput c)).eodOut && (s.sel.step (s.selInput c)).validOut) = false
    rcases hreading hread with ⟨hs, _⟩ | ⟨_, heod⟩
    · rw [hvalid, TxStreamSel.nextValid, if_neg (by rw [hs]; decide), Bool.and_false]
    · rw [heodOut, heod, Bool.false_and]
  · intro hv
    change (s.sel.step (s.selInput c)).validOut = true at hv
    rw [hvalid, TxStreamSel.nextValid] at hv
    by_cases hs : s.sel.state = .readUntilEOP
    · exact moreData_step (h.reading hs) (h.goesOn hs)
    · simp [hs] at hv

/-! ## Nothing is lost -/

/-- A linked machine stores what `TxStreamSel` presents. -/
theorem Linked.stored_eq (h : Linked s) :
    stored (s, c) = if s.sel.validOut then
      some (s.sel.stream, { d := s.sel.dout, eod := s.sel.eodOut }) else none := by
  by_cases hv : s.sel.validOut = true
  · have htx := h.valid hv
    simp [stored, txWrDataSrcSel, htx, (h.moreData htx).1, txInput, hv]
  · by_cases htx : s.tx.sm.state = .moreData
    · simp [stored, txWrDataSrcSel, htx, (h.moreData htx).1, txInput, hv]
    · simp [stored, htx, hv]

/-- **The word of a cycle is stored in the next one.** -/
theorem Linked.stored_step (h : Linked s) (hc : Undisturbed (s, c)) (c' : TxPathInput) :
    stored (s.step c, c') = consumed (s, c) := by
  obtain ⟨hvalid, -, -, hstream, hdout, heodOut⟩ := sel_step_cases s.sel (s.selInput c)
  rw [(h.step hc).stored_eq]
  change (if (s.sel.step (s.selInput c)).validOut then
    some ((s.sel.step (s.selInput c)).stream,
      Dbus.mk (s.sel.step (s.selInput c)).dout (s.sel.step (s.selInput c)).eodOut)
    else none) = _
  rw [hvalid, hstream, hdout, heodOut]
  by_cases hs : s.sel.state = .readUntilEOP
  · by_cases hv : c.validIn s.sel.streamPointer = true
    · have hrd : s.tx.sm.txLlRdreq (s.txInput c) = true := by
        have hfull : c.full = false := hc.read hs hv
        simp [TxData2Buf.txLlRdreq, (h.moreData (h.reading hs)).2, txInput, hfull]
      simp [TxStreamSel.nextValid, consumed, TxStreamSel.rdReqOut, hs, hrd, selInput, hv]
    · simp [TxStreamSel.nextValid, consumed, hs, selInput, hv]
  · simp [TxStreamSel.nextValid, consumed, TxStreamSel.rdReqOut, hs]

/-- **Nothing is lost.** In an undisturbed run from a reset a valid word
is presented to `tx_data2buf` in `More_Data` only, and the words stored
are the words read, each of them once, one cycle later. -/
theorem stored_eq_consumed {ins : List TxPathInput}
    (h : ∀ x ∈ trace TxPath.step s.reset ins, Undisturbed x) (last : TxPathInput) :
    (∀ x ∈ trace TxPath.step s.reset (ins ++ [last]),
      x.1.sel.validOut = true → x.1.tx.sm.state = .moreData) ∧
    (trace TxPath.step s.reset (ins ++ [last])).filterMap stored =
      (trace TxPath.step s.reset ins).filterMap consumed := by
  have hlinked : ∀ x ∈ trace TxPath.step s.reset ins, Linked x.1 :=
    trace_guarded linked_reset (fun _ _ hq hs => hs.step hq) h
  have hend : Linked (run TxPath.step s.reset ins) :=
    run_guarded linked_reset (fun _ _ hq hs => hs.step hq) h
  refine ⟨?_, ?_⟩
  · intro x hx hv
    rw [trace_append, List.mem_append] at hx
    rcases hx with hx | hx
    · exact (hlinked x hx).valid hv
    · rw [trace, trace, List.mem_singleton] at hx
      subst hx
      exact hend.valid hv
  · refine filterMap_trace_delay linked_reset (fun _ _ hq hs => hs.step hq)
      (fun _ _ c' hq hs => hs.stored_step hq c') h (fun i => ?_) last
    rw [linked_reset.stored_eq]
    rfl

/-! The CPU asks for the buffer in the cycle in which the second stream is
connected. -/

def sampleStart : TxPath (GenericDpram.array txPktBufAdrsize 17) where
  sel := TxStreamSel.reset
  tx := {
    sm := {
      state := .idle, offset := 0, pktPtr := 0, pktEnd := 0, rdReq := false
      connectReqIntern := false, selSm := false, wrEn := false, cpuAccGnt := false, dout := 0
      eopOut := false, macHeaderRegFile := Vector.replicate _ 0
      ipHeaderRegFile := Vector.replicate _ 0, ipLength := 0
      udpHeaderRegFile := Vector.replicate _ 0, udpLength := 0, checkSum := 0, idx := 0 }
    pseudoHeader := 0
    buffer := (fun _ => 0, 0) }

/-- A cycle with a packet of one word in the second stream. -/
def sampleInput (request : Bool) : TxPathInput where
  cpuTx := { request := request }
  ethRegs := {
    macMod := 0, macSrv := 0, ipMod := 0, ipSrv := 0, udpSrvPrt := fun _ => 0
    udpModPrt := fun _ => 0 }
  packet := fun k => decide (k.val = 1)
  txi := fun _ => { d := 0xCAFE, eod := true }
  validIn := fun k => decide (k.val = 1)

/-- The word is read from the FIFO, and stored nowhere. -/
theorem stored_ne_consumed :
    (trace TxPath.step sampleStart.reset
      [sampleInput false, sampleInput true, sampleInput true,
        sampleInput true]).filterMap consumed =
        [(⟨1, by decide⟩, { d := 0xCAFE, eod := true })] ∧
    (trace TxPath.step sampleStart.reset
      [sampleInput false, sampleInput true, sampleInput true, sampleInput true,
        sampleInput true]).filterMap stored = [] ∧
    (run TxPath.step sampleStart.reset
      [sampleInput false, sampleInput true, sampleInput true, sampleInput true]).tx.sm.state =
        .accessByCpu := by
  decide

theorem stored_eq_consumed_sample :
    (trace TxPath.step sampleStart.reset
      (List.replicate 5 (sampleInput false) ++ [sampleInput false])).filterMap stored =
        [(⟨1, by decide⟩, { d := 0xCAFE, eod := true })] := by
  have hundisturbed : ∀ x ∈ trace TxPath.step sampleStart.reset
      (List.replicate 5 (sampleInput false)), Undisturbed x := by
    decide
  rw [(stored_eq_consumed hundisturbed (sampleInput false)).2]
  decide

end TxPath

end Ipmux

end WrCalibration
