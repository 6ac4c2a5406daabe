import WrCalibration.Ipmux.TxData2Buf
import Mathlib.Data.List.GetD

/-!
# The frame in the transmit buffer

`txFrame` is the frame of a packet, headers and payload, and
`run_packet` says that one pass of the machine leaves it in the buffer.
The pass is three runs of one kind, a header going into the memory word
by word (`Writing`), behind a run that takes the payload (`Streaming`).
-/

namespace WrCalibration

namespace Ipmux

open Clocked GenericDpram TxData2Buf

/-! ## The frame -/

/-- The UDP length of a payload of `n` words, in bytes. -/
def udpLengthOf (n : ℕ) : Word := BitVec.ofNat 16 (2 * (udpHdrCnt + n))

/-- The UDP header of a payload. -/
def udpHeader (regs : EthRegs) (stream : Fin numUdpPrts) (ws : List Word) :
    Vector Word udpHdrCnt :=
  let header := udpHeaderOf initUdpHeader regs stream (udpLengthOf ws.length)
  let checkSum := pseudoHeader regs + sum32 ws + (0#15 ++ udpLengthOf ws.length ++ 0#1)
  setUdpChecks header (txFold (addPorts checkSum header))

/-- The IP header of a payload of `n` words, before its checksum. -/
def ipHeaderNoChecks (regs : EthRegs) (frag : TxInput) (n : ℕ) : Vector Word ipHdrCnt :=
  ipHeaderOf (initIpHeader regs) (BitVec.ofNat 16 (2 * ipHdrCnt) + udpLengthOf n) frag.fragID
    frag.moreFrag frag.fragOff

/-- The IP header of a payload of `n` words. -/
def ipHeader (regs : EthRegs) (frag : TxInput) (n : ℕ) : Vector Word ipHdrCnt :=
  (ipHeaderNoChecks regs frag n).set ipIdxChecks
    (~~~lower (txFold (sum32 (ipHeaderNoChecks regs frag n).toList)))

/-- **The frame of a payload.** The fragment fields are those of the cycle
the IP header is begun in. -/
def txFrame (regs : EthRegs) (stream : Fin numUdpPrts) (frag : TxInput) (ws : List Word) :
    List Word :=
  (initMacHeader regs).toList ++ ((ipHeader regs frag ws.length).toList ++
    ((udpHeader regs stream ws).toList ++ ws))

theorem length_txFrame (regs : EthRegs) (stream : Fin numUdpPrts) (frag : TxInput)
    (ws : List Word) : (txFrame regs stream frag ws).length = payload + ws.length := by
  simp only [txFrame, List.length_append, Vector.length_toList]
  simp only [macHdrCnt, ipHdrCnt, udpHdrCnt, payload, udpHdr, ipHdr, macHdr]
  omega

/-! ## Stable registers -/

variable {ram : GenericDpram txPktBufAdrsize 17}

/-- **Idle, with the headers of the registers** in the header files. -/
structure Ready (regs : EthRegs) (s : TxData2Buf) : Prop where
  state : s.state = .idle
  offset : s.offset = payload
  selSm : s.selSm = true
  wrEn : s.wrEn = false
  eopOut : s.eopOut = false
  mac : s.macHeaderRegFile = initMacHeader regs
  ip : s.ipHeaderRegFile = initIpHeader regs
  udp : s.udpHeaderRegFile = initUdpHeader
  checkSum : s.checkSum = pseudoHeader regs

theorem ready_toIdle (s : TxData2Buf) (i : TxInput) :
    Ready i.ethRegs (s.toIdle i (pseudoHeader i.ethRegs)) :=
  ⟨rfl, rfl, rfl, rfl, rfl, rfl, rfl, rfl, rfl⟩

/-- Every way into `Idle` initialises the header files. -/
theorem exists_toIdle {s : TxData2Buf} {i : TxInput} {p : BitVec 32}
    (h : (s.step i p).state = .idle) : ∃ s', s.step i p = toIdle s' i p := by
  have hedge := s.edge_step i p
  generalize s.step i p = s' at h hedge
  cases hedge with
  | toIdle => exact ⟨_, rfl⟩
  | toMoreData => exact absurd h (by simp [toMoreData])
  | toAccessByCpu => exact absurd h (by simp [toAccessByCpu])
  | writeWord hne _ => exact absurd h hne
  | toIpWriteCheckSum => exact absurd h (by simp [toIpWriteCheckSum])

/-- **Two cycles with the same registers** that end in `Idle` leave the
machine ready. -/
theorem ready_of_stable {s : TxWriteSide ram} {c₁ c₂ : TxInput × BitVec txPktBufAdrsize}
    (hregs : c₁.1.ethRegs = c₂.1.ethRegs) (h : ((s.step c₁).step c₂).sm.state = .idle) :
    Ready c₂.1.ethRegs ((s.step c₁).step c₂).sm := by
  have hsm : ((s.step c₁).step c₂).sm =
      (s.step c₁).sm.step c₂.1 (pseudoHeader c₂.1.ethRegs) := by
    rw [← hregs]
    rfl
  rw [hsm] at h ⊢
  obtain ⟨s', hs'⟩ := exists_toIdle h
  rw [hs']
  exact ready_toIdle s' c₂.1

/-! ## The payload -/

/-- The word of a cycle, if there is one. -/
def takenWord (c : TxInput × BitVec txPktBufAdrsize) : List Word :=
  if c.1.txLlValid then [c.1.txLlData] else []

/-- **The payload comes in**, whatever the registers are. -/
structure Taking (ws : List Word) (s : TxWriteSide ram) : Prop where
  state : s.sm.state = .moreData
  offset : s.sm.offset = payload + ws.length
  selSm : s.sm.selSm = false
  connectReqIntern : s.sm.connectReqIntern = false
  eopOut : s.sm.eopOut = false
  held : ram.Holds s.buffer s.sm.pktPtr payload (ws.map (packetWord false))

section Taking

variable {ws : List Word} {s : TxWriteSide ram} {c : TxInput × BitVec txPktBufAdrsize}

/-- A word of the payload goes behind those that are in the memory. -/
theorem Taking.buffer_step (h : Taking ws s) : (s.step c).buffer = ram.step s.buffer c.1.txLlValid
    (s.sm.pktPtr +
      BitVec.ofNat txPktBufAdrsize (payload + (ws.map (packetWord false)).length))
    (packetWord c.1.txLlEop c.1.txLlData) c.2 := by
  simp [TxWriteSide.step, txWrDataSrcSel, h.selSm, wrAddr, h.offset]

theorem Taking.sm_step (h : Taking ws s) (hmore : (c.1.txLlEop && c.1.txLlValid) = false) :
    (s.step c).sm = s.sm.toMoreData c.1 := by
  simp [TxWriteSide.step, TxData2Buf.step, h.state, hmore]

/-- **A cycle of the payload** takes its word, if there is one and it is
not the last. -/
theorem Taking.step (h : Taking ws s) (hlen : payload + ws.length < 2 ^ txPktBufAdrsize)
    (hmore : (c.1.txLlEop && c.1.txLlValid) = false) :
    Taking (ws ++ takenWord c) (s.step c) := by
  have hsm := h.sm_step hmore
  have hwrite := h.buffer_step (c := c)
  by_cases hvalid : c.1.txLlValid = true
  · have heop : c.1.txLlEop = false := by simpa [hvalid] using hmore
    have htaken : takenWord c = [c.1.txLlData] := by rw [takenWord, if_pos hvalid]
    rw [htaken]
    constructor <;> try rw [hsm]
    · rfl
    · simp [toMoreData, hvalid, h.connectReqIntern, h.offset]
      omega
    · rfl
    · rfl
    · exact h.eopOut
    · rw [hwrite, hvalid, heop, List.map_append, List.map_singleton]
      exact h.held.step_append (by simpa using hlen)
  · have hvalid' : c.1.txLlValid = false := by simpa using hvalid
    have htaken : takenWord c = [] := by rw [takenWord, if_neg hvalid]
    rw [htaken, List.append_nil]
    constructor <;> try rw [hsm]
    · rfl
    · simp [toMoreData, hvalid', h.offset]
    · rfl
    · rfl
    · exact h.eopOut
    · rw [hwrite, hvalid']
      exact h.held.step fun hfalse => by simp at hfalse

end Taking

/-- **In the payload**, after some of its words. -/
structure Streaming (regs : EthRegs) (base : BitVec txPktBufAdrsize) (ws : List Word)
    (s : TxWriteSide ram) : Prop where
  state : s.sm.state = .moreData
  offset : s.sm.offset = payload + ws.length
  selSm : s.sm.selSm = false
  connectReqIntern : s.sm.connectReqIntern = false
  eopOut : s.sm.eopOut = false
  pktPtr : s.sm.pktPtr = base
  mac : s.sm.macHeaderRegFile = initMacHeader regs
  ip : s.sm.ipHeaderRegFile = initIpHeader regs
  udp : s.sm.udpHeaderRegFile = initUdpHeader
  checkSum : s.sm.checkSum = pseudoHeader regs + sum32 ws
  held : ram.Holds s.buffer base payload (ws.map (packetWord false))

/-- The connection: no word is taken while `ConnectReq` is up. -/
theorem streaming_connect {regs : EthRegs} {s : TxWriteSide ram}
    {c : TxInput × BitVec txPktBufAdrsize} (h : Ready regs s.sm) (hfull : c.1.full = false)
    (hreq : c.1.cpuTx.request = false) (hconn : c.1.connected = true)
    (hvalid : c.1.txLlValid = false ∨ s.sm.connectReqIntern = true) :
    Streaming regs s.sm.pktPtr [] (s.step c) := by
  have htaken : (c.1.txLlValid && !s.sm.connectReqIntern) = false := by
    rcases hvalid with hv | hv <;> simp [hv]
  have hsm : (s.step c).sm = s.sm.toMoreData c.1 := by
    simp [TxWriteSide.step, TxData2Buf.step, h.state, hfull, hreq, hconn]
  constructor <;> try rw [hsm]
  · rfl
  · simp [toMoreData, htaken, h.offset]
  · rfl
  · rfl
  · exact h.eopOut
  · rfl
  · exact h.mac
  · exact h.ip
  · exact h.udp
  · simp [toMoreData, htaken, h.checkSum]
  · intro k hk
    simp at hk

theorem Streaming.taking {regs : EthRegs} {base : BitVec txPktBufAdrsize} {ws : List Word}
    {s : TxWriteSide ram} (h : Streaming regs base ws s) : Taking ws s where
  state := h.state
  offset := h.offset
  selSm := h.selSm
  connectReqIntern := h.connectReqIntern
  eopOut := h.eopOut
  held := by
    rw [h.pktPtr]
    exact h.held

@[inherit_doc Taking.step]
theorem Streaming.step {regs : EthRegs} {base : BitVec txPktBufAdrsize} {ws : List Word}
    {s : TxWriteSide ram} {c : TxInput × BitVec txPktBufAdrsize} (h : Streaming regs base ws s)
    (hlen : payload + ws.length < 2 ^ txPktBufAdrsize)
    (hmore : (c.1.txLlEop && c.1.txLlValid) = false) :
    Streaming regs base (ws ++ takenWord c) (s.step c) := by
  have hsm := h.taking.sm_step hmore
  have htaking := h.taking.step hlen hmore
  have hptr : (s.step c).sm.pktPtr = base := by
    rw [hsm]
    exact h.pktPtr
  have hsum : (s.step c).sm.checkSum = pseudoHeader regs + sum32 (ws ++ takenWord c) := by
    rw [hsm, takenWord]
    cases hvalid : c.1.txLlValid with
    | true =>
      simp only [toMoreData, hvalid, h.connectReqIntern, h.checkSum, sum32_append,
        sum32_singleton, add_assoc, if_pos]
      rfl
    | false => simp [toMoreData, hvalid, h.checkSum]
  refine ⟨htaking.state, htaking.offset, htaking.selSm, htaking.connectReqIntern, htaking.eopOut,
    hptr, ?_, ?_, ?_, hsum, hptr ▸ htaking.held⟩
  · rw [hsm]
    exact h.mac
  · rw [hsm]
    exact h.ip
  · rw [hsm]
    exact h.udp

/-- **The payload but for its last word**, with bubbles anywhere. -/
theorem Streaming.run {regs : EthRegs} {base : BitVec txPktBufAdrsize} {ws : List Word}
    {s : TxWriteSide ram} (cs : List (TxInput × BitVec txPktBufAdrsize))
    (h : Streaming regs base ws s)
    (hlen : payload + (ws ++ cs.flatMap takenWord).length < 2 ^ txPktBufAdrsize)
    (hmore : ∀ c ∈ cs, (c.1.txLlEop && c.1.txLlValid) = false) :
    Streaming regs base (ws ++ cs.flatMap takenWord) (run TxWriteSide.step s cs) := by
  induction cs generalizing ws s with
  | nil => simpa using h
  | cons c cs ih =>
    obtain ⟨hc, hcs⟩ := List.forall_mem_cons.1 hmore
    have hnow : payload + ws.length < 2 ^ txPktBufAdrsize := by
      rw [List.length_append] at hlen
      omega
    rw [List.flatMap_cons, ← List.append_assoc] at hlen ⊢
    rw [run_cons]
    exact ih (h.step hnow hc) hlen hcs

/-! ## A header -/

/-- **A header on its way**: `j` words of it are chosen, and all but the
last of these are in the memory, in front of `tail`. -/
structure Writing (state : TxState) (hdr : ℕ) (file : List Word) (base : BitVec txPktBufAdrsize)
    (tail : List (BitVec 17)) (j : ℕ) (s : TxWriteSide ram) : Prop where
  state : s.sm.state = state
  idx : s.sm.idx = j
  offset : s.sm.offset + 1 = hdr + j
  dout : s.sm.dout = file.getD (j - 1) 0
  selSm : s.sm.selSm = true
  wrEn : s.sm.wrEn = true
  eopOut : s.sm.eopOut = false
  pktPtr : s.sm.pktPtr = base
  held : ram.Holds s.buffer base hdr ((file.take (j - 1)).map (packetWord false))
  heldTail : ram.Holds s.buffer base (hdr + file.length) tail

section Writing

variable {state state' : TxState} {hdr hdr' j : ℕ} {file file' : List Word}
  {base : BitVec txPktBufAdrsize} {tail : List (BitVec 17)} {s : TxWriteSide ram}
  {c : TxInput × BitVec txPktBufAdrsize}

/-- The next edge stores the word chosen last. -/
theorem Writing.stored (h : Writing state hdr file base tail j s) (hj : 0 < j)
    (hj' : j ≤ file.length) (hlen : hdr + file.length + tail.length ≤ 2 ^ txPktBufAdrsize) :
    ram.Holds (s.step c).buffer base hdr ((file.take j).map (packetWord false)) ∧
      ram.Holds (s.step c).buffer base (hdr + file.length) tail := by
  have htake : (file.take j).map (packetWord false) =
      (file.take (j - 1)).map (packetWord false) ++ [packetWord false (file.getD (j - 1) 0)] := by
    obtain ⟨k, rfl⟩ : ∃ k, j = k + 1 := ⟨j - 1, by omega⟩
    rw [List.take_succ_eq_append_getElem (by omega), List.map_append, List.map_singleton,
      Nat.add_sub_cancel, List.getD_eq_getElem _ _ (by omega)]
  have hoffset := h.offset
  have htaken : ((file.take (j - 1)).map (packetWord false)).length = j - 1 := by
    rw [List.length_map, List.length_take]
    omega
  have hwrite : (s.step c).buffer = ram.step s.buffer true
      (base + BitVec.ofNat txPktBufAdrsize (hdr + (j - 1)))
      (packetWord false (file.getD (j - 1) 0)) c.2 := by
    have hat : s.sm.offset = hdr + (j - 1) := by omega
    simp [TxWriteSide.step, txWrDataSrcSel, h.selSm, wrAddr, h.pktPtr, h.wrEn, h.eopOut, h.dout,
      hat]
  rw [hwrite, htake]
  constructor
  · have happend := h.held.step_append (b := c.2)
      (w := packetWord false (file.getD (j - 1) 0)) (by rw [htaken]; omega)
    rwa [htaken] at happend
  · exact h.heldTail.step_of_outside hlen (by omega) (by omega)

/-- **The next word of a header.** -/
theorem Writing.step (h : Writing state hdr file base tail j s) (hj : 0 < j)
    (hj' : j < file.length) (hlen : hdr + file.length + tail.length ≤ 2 ^ txPktBufAdrsize)
    {s₀ : TxData2Buf} (hsm : (s.step c).sm = s₀.writeWord state hdr j (file.getD j 0))
    (hptr : s₀.pktPtr = base) (heop : s₀.eopOut = false) :
    Writing state hdr file base tail (j + 1) (s.step c) := by
  obtain ⟨hheld, htail⟩ := h.stored (c := c) hj (by omega) hlen
  constructor <;> try rw [hsm]
  · rfl
  · rfl
  · rfl
  · rfl
  · rfl
  · rfl
  · exact heop
  · exact hptr
  · rwa [Nat.add_sub_cancel]
  · exact htail

/-- **From one header to the one in front of it.** -/
theorem Writing.next (h : Writing state hdr file base tail j s) (hj : 0 < j)
    (hj' : file.length = j) (hlen : hdr + file.length + tail.length ≤ 2 ^ txPktBufAdrsize)
    (hhdr : hdr' + file'.length = hdr) {s₀ : TxData2Buf}
    (hsm : (s.step c).sm = s₀.writeWord state' hdr' 0 (file'.getD 0 0)) (hptr : s₀.pktPtr = base)
    (heop : s₀.eopOut = false) :
    Writing state' hdr' file' base (file.map (packetWord false) ++ tail) 1 (s.step c) := by
  obtain ⟨hheld, htail⟩ := h.stored (c := c) hj (by omega) hlen
  rw [← hj', List.take_length] at hheld
  constructor <;> try rw [hsm]
  · rfl
  · rfl
  · rfl
  · rfl
  · rfl
  · rfl
  · exact heop
  · exact hptr
  · intro k hk
    simp at hk
  · rw [hhdr]
    exact hheld.append (by rwa [List.length_map])

end Writing

/-! ## The three headers -/

/-- A header file read past its end is zero, as a list of its words is. -/
theorem getD_toList {n : ℕ} (v : Vector Word n) (k : ℕ) : v.getD k 0 = v.toList.getD k 0 := by
  simp [Vector.getD, List.getD_eq_getElem?_getD]

section Headers

variable {regs : EthRegs} {stream : Fin numUdpPrts} {frag : TxInput} {ws : List Word}
  {base : BitVec txPktBufAdrsize} {j : ℕ} {s : TxWriteSide ram}
  {c : TxInput × BitVec txPktBufAdrsize} {cs : List (TxInput × BitVec txPktBufAdrsize)}

/-- **In the UDP header.** -/
structure UdpWriting (regs : EthRegs) (stream : Fin numUdpPrts) (ws : List Word)
    (base : BitVec txPktBufAdrsize) (j : ℕ) (s : TxWriteSide ram) : Prop where
  writing : Writing .udpWriteHeader udpHdr (udpHeader regs stream ws).toList base (endMarked ws) j s
  mac : s.sm.macHeaderRegFile = initMacHeader regs
  ip : s.sm.ipHeaderRegFile = initIpHeader regs
  udp : s.sm.udpHeaderRegFile = udpHeader regs stream ws
  udpLength : s.sm.udpLength = udpLengthOf ws.length
  pktEnd : s.sm.pktEnd + 1 = BitVec.ofNat txPktBufAdrsize (payload + ws.length)

/-- **In the IP header**, whose checksum is summed on the way. -/
structure IpWriting (regs : EthRegs) (stream : Fin numUdpPrts) (frag : TxInput) (ws : List Word)
    (base : BitVec txPktBufAdrsize) (j : ℕ) (s : TxWriteSide ram) : Prop where
  writing : Writing .ipWriteHeader ipHdr (ipHeaderNoChecks regs frag ws.length).toList base
    ((udpHeader regs stream ws).toList.map (packetWord false) ++ endMarked ws) j s
  mac : s.sm.macHeaderRegFile = initMacHeader regs
  ip : s.sm.ipHeaderRegFile = ipHeaderNoChecks regs frag ws.length
  checkSum : s.sm.checkSum = sum32 ((ipHeaderNoChecks regs frag ws.length).toList.take j)
  pktEnd : s.sm.pktEnd + 1 = BitVec.ofNat txPktBufAdrsize (payload + ws.length)

/-- **In the MAC header.** -/
structure MacWriting (regs : EthRegs) (stream : Fin numUdpPrts) (frag : TxInput) (ws : List Word)
    (base : BitVec txPktBufAdrsize) (j : ℕ) (s : TxWriteSide ram) : Prop where
  writing : Writing .macWriteHeader macHdr (initMacHeader regs).toList base
    ((ipHeader regs frag ws.length).toList.map (packetWord false) ++
      ((udpHeader regs stream ws).toList.map (packetWord false) ++ endMarked ws)) j s
  mac : s.sm.macHeaderRegFile = initMacHeader regs
  pktEnd : s.sm.pktEnd + 1 = BitVec.ofNat txPktBufAdrsize (payload + ws.length)

/-- **The last word of the payload**: the UDP header is begun. -/
theorem Taking.writing (h : Taking ws s) (heop : c.1.txLlEop = true)
    (hvalid : c.1.txLlValid = true) (hlen : payload + ws.length < 2 ^ txPktBufAdrsize) :
    Writing .udpWriteHeader udpHdr (s.sm.toUdpWriteHeader c.1).udpHeaderRegFile.toList s.sm.pktPtr
      (endMarked (ws ++ [c.1.txLlData])) 1 (s.step c) := by
  have hsm : (s.step c).sm = s.sm.toUdpWriteHeader c.1 := by
    simp [TxWriteSide.step, TxData2Buf.step, h.state, heop, hvalid]
  constructor <;> try rw [hsm]
  · rfl
  · rfl
  · rfl
  · rw [← getD_toList]
    rfl
  · rfl
  · rfl
  · exact h.eopOut
  · rfl
  · intro k hk
    simp at hk
  · rw [h.buffer_step, hvalid, heop, endMarked_append (by simp), Vector.length_toList]
    exact h.held.step_append (by simpa using hlen)

@[inherit_doc Taking.writing]
theorem Streaming.udpWriting {w : Word} (h : Streaming regs base ws s) (heop : c.1.txLlEop = true)
    (hvalid : c.1.txLlValid = true) (hw : c.1.txLlData = w) (hregs : c.1.ethRegs = regs)
    (hstream : c.1.stream = stream) (hlen : payload + ws.length < 2 ^ txPktBufAdrsize) :
    UdpWriting regs stream (ws ++ [w]) base 1 (s.step c) := by
  have hsm : (s.step c).sm = s.sm.toUdpWriteHeader c.1 := by
    simp [TxWriteSide.step, TxData2Buf.step, h.state, heop, hvalid]
  have hlength : BitVec.ofNat 16 (2 * (udpHdrCnt + s.sm.offset + 1 - payload)) =
      udpLengthOf (ws ++ [w]).length := by
    rw [h.offset, udpLengthOf, List.length_append, List.length_singleton]
    congr 1
    omega
  have hsum : s.sm.checkSum + wide c.1.txLlData = pseudoHeader regs + sum32 (ws ++ [w]) := by
    rw [h.checkSum, hw, sum32_append, sum32_singleton, add_assoc]
  have hheader : (s.sm.toUdpWriteHeader c.1).udpHeaderRegFile =
      udpHeader regs stream (ws ++ [w]) := by
    simp only [toUdpWriteHeader, writeWord, hlength, hsum, h.udp, hregs, hstream]
    rfl
  have hwriting := h.taking.writing heop hvalid hlen
  rw [hheader, h.pktPtr, hw] at hwriting
  refine ⟨hwriting, ?_, ?_, ?_, ?_, ?_⟩
  all_goals rw [hsm]
  · exact h.mac
  · exact h.ip
  · exact hheader
  · exact hlength
  · rw [List.length_append, List.length_singleton, ← add_assoc, BitVec.ofNat_add, ← h.offset]
    rfl

theorem UdpWriting.step (h : UdpWriting regs stream ws base j s) (hj : 0 < j)
    (hj' : j < udpHdrCnt) (hlen : payload + ws.length ≤ 2 ^ txPktBufAdrsize) :
    UdpWriting regs stream ws base (j + 1) (s.step c) := by
  have hsm : (s.step c).sm = s.sm.writeWord .udpWriteHeader udpHdr j
      ((udpHeader regs stream ws).toList.getD j 0) := by
    rw [← getD_toList, ← h.udp]
    simp [TxWriteSide.step, TxData2Buf.step, h.writing.state, h.writing.idx, Nat.ne_of_lt hj']
  have hfile : (udpHeader regs stream ws).toList.length = udpHdrCnt := Vector.length_toList
  refine ⟨h.writing.step hj (by rwa [hfile]) ?_ hsm h.writing.pktPtr h.writing.eopOut, ?_, ?_, ?_,
    ?_, ?_⟩
  · rwa [hfile, length_endMarked]
  all_goals rw [hsm]
  · exact h.mac
  · exact h.ip
  · exact h.udp
  · exact h.udpLength
  · exact h.pktEnd

/-- **From the UDP header to the IP header.** -/
theorem UdpWriting.ipWriting (h : UdpWriting regs stream ws base udpHdrCnt s)
    (hlen : payload + ws.length ≤ 2 ^ txPktBufAdrsize) :
    IpWriting regs stream c.1 ws base 1 (s.step c) := by
  have hsm : (s.step c).sm = s.sm.toIpWriteHeader c.1 := by
    simp [TxWriteSide.step, TxData2Buf.step, h.writing.state, h.writing.idx]
  have hheader : ipHeaderOf s.sm.ipHeaderRegFile (BitVec.ofNat 16 (2 * ipHdrCnt) + s.sm.udpLength)
      c.1.fragID c.1.moreFrag c.1.fragOff = ipHeaderNoChecks regs c.1 ws.length := by
    rw [h.ip, h.udpLength, ipHeaderNoChecks]
  have hfile : (udpHeader regs stream ws).toList.length = udpHdrCnt := Vector.length_toList
  have hfile' : (ipHeaderNoChecks regs c.1 ws.length).toList.length = ipHdrCnt :=
    Vector.length_toList
  have hsm' := hsm
  simp only [toIpWriteHeader, hheader, getD_toList] at hsm'
  refine ⟨h.writing.next (by decide) hfile ?_ ?_ hsm' h.writing.pktPtr h.writing.eopOut, ?_, ?_, ?_,
    ?_⟩
  · rwa [hfile, length_endMarked]
  · rw [hfile']
    rfl
  all_goals rw [hsm]
  · exact h.mac
  · exact hheader
  · change wide ((ipHeaderOf _ _ _ _ _).getD 0 0) = _
    rw [hheader, getD_toList, List.take_succ_eq_append_getElem (by rw [hfile']; decide),
      List.take_zero, List.nil_append, sum32_singleton,
      List.getD_eq_getElem _ _ (by rw [hfile']; decide)]
  · exact h.pktEnd

theorem IpWriting.step (h : IpWriting regs stream frag ws base j s) (hj : 0 < j)
    (hj' : j < ipHdrCnt) (hlen : payload + ws.length ≤ 2 ^ txPktBufAdrsize) :
    IpWriting regs stream frag ws base (j + 1) (s.step c) := by
  have hfile : (ipHeaderNoChecks regs frag ws.length).toList.length = ipHdrCnt :=
    Vector.length_toList
  have hsm : (s.step c).sm = { s.sm with
      checkSum := sum32 ((ipHeaderNoChecks regs frag ws.length).toList.take (j + 1)) }.writeWord
        .ipWriteHeader ipHdr j ((ipHeaderNoChecks regs frag ws.length).toList.getD j 0) := by
    have hsum : s.sm.checkSum + wide ((ipHeaderNoChecks regs frag ws.length).toList.getD j 0) =
        sum32 ((ipHeaderNoChecks regs frag ws.length).toList.take (j + 1)) := by
      rw [h.checkSum, List.take_succ_eq_append_getElem (by rwa [hfile]), sum32_append,
        sum32_singleton, List.getD_eq_getElem _ _ (by rwa [hfile])]
    rw [← hsum, ← getD_toList, ← h.ip]
    simp [TxWriteSide.step, TxData2Buf.step, h.writing.state, h.writing.idx, Nat.ne_of_lt hj']
  refine ⟨h.writing.step hj (by rwa [hfile]) ?_ hsm h.writing.pktPtr h.writing.eopOut, ?_, ?_, ?_,
    ?_⟩
  · rwa [hfile, List.length_append, List.length_map, Vector.length_toList, length_endMarked,
      ← add_assoc]
  all_goals rw [hsm]
  · exact h.mac
  · exact h.ip
  · rfl
  · exact h.pktEnd

/-- **The IP checksum**, chosen and not yet in its place. -/
structure IpChecked (regs : EthRegs) (stream : Fin numUdpPrts) (frag : TxInput) (ws : List Word)
    (base : BitVec txPktBufAdrsize) (s : TxWriteSide ram) : Prop where
  state : s.sm.state = .ipWriteCheckSum
  offset : s.sm.offset = ipHdr + ipIdxChecks
  dout : s.sm.dout = ~~~lower (txFold (sum32 (ipHeaderNoChecks regs frag ws.length).toList))
  selSm : s.sm.selSm = true
  wrEn : s.sm.wrEn = true
  eopOut : s.sm.eopOut = false
  pktPtr : s.sm.pktPtr = base
  held : ram.Holds s.buffer base ipHdr
    ((ipHeaderNoChecks regs frag ws.length).toList.map (packetWord false) ++
      ((udpHeader regs stream ws).toList.map (packetWord false) ++ endMarked ws))
  mac : s.sm.macHeaderRegFile = initMacHeader regs
  pktEnd : s.sm.pktEnd + 1 = BitVec.ofNat txPktBufAdrsize (payload + ws.length)

theorem IpWriting.ipChecked (h : IpWriting regs stream frag ws base ipHdrCnt s)
    (hlen : payload + ws.length ≤ 2 ^ txPktBufAdrsize) :
    IpChecked regs stream frag ws base (s.step c) := by
  have hsm : (s.step c).sm = s.sm.toIpWriteCheckSum := by
    simp [TxWriteSide.step, TxData2Buf.step, h.writing.state, h.writing.idx]
  have hfile : (ipHeaderNoChecks regs frag ws.length).toList.length = ipHdrCnt :=
    Vector.length_toList
  have htake : (ipHeaderNoChecks regs frag ws.length).toList.take ipHdrCnt =
      (ipHeaderNoChecks regs frag ws.length).toList := List.take_of_length_le hfile.le
  obtain ⟨hheld, htail⟩ := h.writing.stored (c := c) (by decide) hfile.ge (by
    rwa [hfile, List.length_append, List.length_map, Vector.length_toList, length_endMarked,
      ← add_assoc])
  rw [htake] at hheld
  constructor <;> try rw [hsm]
  · rfl
  · rfl
  · change ~~~lower (txFold s.sm.checkSum) = _
    rw [h.checkSum, htake]
  · rfl
  · rfl
  · exact h.writing.eopOut
  · exact h.writing.pktPtr
  · exact hheld.append (by rwa [List.length_map])
  · exact h.mac
  · exact h.pktEnd

/-- **From the IP header to the MAC header**: the checksum goes into its
place. -/
theorem IpChecked.macWriting (h : IpChecked regs stream frag ws base s)
    (hlen : payload + ws.length ≤ 2 ^ txPktBufAdrsize) :
    MacWriting regs stream frag ws base 1 (s.step c) := by
  have hsm : (s.step c).sm = s.sm.writeWord .macWriteHeader macHdr 0
      ((initMacHeader regs).toList.getD 0 0) := by
    rw [← getD_toList, ← h.mac]
    simp [TxWriteSide.step, TxData2Buf.step, h.state]
  have hwrite : (s.step c).buffer = ram.step s.buffer true
      (base + BitVec.ofNat txPktBufAdrsize (ipHdr + ipIdxChecks))
      (packetWord false s.sm.dout) c.2 := by
    simp [TxWriteSide.step, txWrDataSrcSel, h.selSm, wrAddr, h.pktPtr, h.wrEn, h.eopOut, h.offset]
  have hlenIp : ((ipHeaderNoChecks regs frag ws.length).toList.map (packetWord false)).length =
      ipHdrCnt := by rw [List.length_map, Vector.length_toList]
  -- the checksum overwrites one word of what is held
  have hset := h.held.step_set (k := ipIdxChecks) (w := packetWord false s.sm.dout) (b := c.2)
    (by rwa [List.length_append, List.length_append, hlenIp, List.length_map,
      Vector.length_toList, length_endMarked, ← add_assoc, ← add_assoc])
    (by rw [List.length_append, hlenIp]; exact Nat.lt_add_right _ (by decide))
  rw [← hwrite, List.set_append_left _ _ (by rw [hlenIp]; decide), ← List.map_set, h.dout,
    ← Vector.toList_set] at hset
  refine ⟨?_, ?_, ?_⟩
  · constructor <;> try rw [hsm]
    · rfl
    · rfl
    · rfl
    · rfl
    · rfl
    · rfl
    · exact h.eopOut
    · exact h.pktPtr
    · intro k hk
      simp at hk
    · exact hset
  · rw [hsm]
    exact h.mac
  · rw [hsm]
    exact h.pktEnd

theorem MacWriting.step (h : MacWriting regs stream frag ws base j s) (hj : 0 < j)
    (hj' : j < macHdrCnt) (hlen : payload + ws.length ≤ 2 ^ txPktBufAdrsize) :
    MacWriting regs stream frag ws base (j + 1) (s.step c) := by
  have hsm : (s.step c).sm = s.sm.writeWord .macWriteHeader macHdr j
      ((initMacHeader regs).toList.getD j 0) := by
    rw [← getD_toList, ← h.mac]
    simp [TxWriteSide.step, TxData2Buf.step, h.writing.state, h.writing.idx, Nat.ne_of_lt hj']
  have hfile : (initMacHeader regs).toList.length = macHdrCnt := Vector.length_toList
  refine ⟨h.writing.step hj (by rwa [hfile]) ?_ hsm h.writing.pktPtr h.writing.eopOut, ?_, ?_⟩
  · rwa [hfile, List.length_append, List.length_map, Vector.length_toList, List.length_append,
      List.length_map, Vector.length_toList, length_endMarked, ← add_assoc, ← add_assoc]
  · rw [hsm]
    exact h.mac
  · rw [hsm]
    exact h.pktEnd

/-- **A packet is in the buffer**, and the machine back in `Idle`. -/
structure Committed (regs : EthRegs) (stream : Fin numUdpPrts) (frag : TxInput) (ws : List Word)
    (base : BitVec txPktBufAdrsize) (s : TxWriteSide ram) : Prop where
  state : s.sm.state = .idle
  pktPtr : s.sm.pktPtr = base + BitVec.ofNat txPktBufAdrsize (payload + ws.length)
  held : ram.Holds s.buffer base 0 (endMarked (txFrame regs stream frag ws))

theorem MacWriting.committed (h : MacWriting regs stream frag ws base macHdrCnt s) (hws : ws ≠ [])
    (hlen : payload + ws.length ≤ 2 ^ txPktBufAdrsize) :
    Committed regs stream frag ws base (s.step c) := by
  have hsm : (s.step c).sm = toIdle { s.sm with pktPtr := s.sm.pktPtr + s.sm.pktEnd + 1 } c.1
      s.pseudoHeader := by
    simp [TxWriteSide.step, TxData2Buf.step, h.writing.state, h.writing.idx]
  have hfile : (initMacHeader regs).toList.length = macHdrCnt := Vector.length_toList
  obtain ⟨hheld, htail⟩ := h.writing.stored (c := c) (by decide) hfile.ge (by
    rwa [hfile, List.length_append, List.length_map, Vector.length_toList, List.length_append,
      List.length_map, Vector.length_toList, length_endMarked, ← add_assoc, ← add_assoc])
  rw [List.take_of_length_le hfile.le] at hheld
  refine ⟨?_, ?_, ?_⟩
  · rw [hsm]
    rfl
  · rw [hsm, ← h.pktEnd, ← add_assoc, ← h.writing.pktPtr]
    rfl
  · rw [txFrame, endMarked_append (by simp [hws]), endMarked_append (by simp [hws]),
      endMarked_append hws]
    exact hheld.append (by rwa [List.length_map])

/-- The cycles of the three headers: a word each, and one more for the
checksum. -/
def headerCycles : ℕ := udpHdrCnt + ipHdrCnt + 1 + macHdrCnt

/-- **Where the machine is** in the headers, after each number of cycles. -/
inductive AtHeader (regs : EthRegs) (stream : Fin numUdpPrts) (ws : List Word)
    (base : BitVec txPktBufAdrsize) : ℕ → TxWriteSide ram → Prop
  | udp {j : ℕ} {s : TxWriteSide ram} : 0 < j → j ≤ udpHdrCnt →
    UdpWriting regs stream ws base j s → AtHeader regs stream ws base j s
  | ip {frag : TxInput} {j : ℕ} {s : TxWriteSide ram} : 0 < j → j ≤ ipHdrCnt →
    IpWriting regs stream frag ws base j s → AtHeader regs stream ws base (udpHdrCnt + j) s
  | ipChecked {frag : TxInput} {s : TxWriteSide ram} : IpChecked regs stream frag ws base s →
    AtHeader regs stream ws base (udpHdrCnt + ipHdrCnt + 1) s
  | mac {frag : TxInput} {j : ℕ} {s : TxWriteSide ram} : 0 < j → j ≤ macHdrCnt →
    MacWriting regs stream frag ws base j s →
    AtHeader regs stream ws base (udpHdrCnt + ipHdrCnt + 1 + j) s
  | committed {frag : TxInput} {s : TxWriteSide ram} : Committed regs stream frag ws base s →
    AtHeader regs stream ws base (headerCycles + 1) s

variable {m : ℕ}

/-- **One cycle of the headers.** -/
theorem AtHeader.step (h : AtHeader regs stream ws base m s) (hws : ws ≠ [])
    (hlen : payload + ws.length ≤ 2 ^ txPktBufAdrsize) (hm : m < headerCycles + 1) :
    AtHeader regs stream ws base (m + 1) (s.step c) := by
  cases h with
  | udp hj hj' h =>
    rcases Nat.eq_or_lt_of_le hj' with rfl | hlt
    · exact .ip (by decide) (by decide) (h.ipWriting hlen)
    · exact .udp (by omega) hlt (h.step hj hlt hlen)
  | @ip frag j _ hj hj' h =>
    rcases Nat.eq_or_lt_of_le hj' with rfl | hlt
    · exact .ipChecked (h.ipChecked hlen)
    · exact .ip (j := j + 1) (by omega) hlt (h.step hj hlt hlen)
  | ipChecked h => exact .mac (j := 1) (by decide) (by decide) (h.macWriting hlen)
  | @mac frag j _ hj hj' h =>
    rcases Nat.eq_or_lt_of_le hj' with rfl | hlt
    · exact .committed (h.committed hws hlen)
    · exact .mac (j := j + 1) (by omega) hlt (h.step hj hlt hlen)
  | committed _ => exact absurd hm (Nat.lt_irrefl _)

/-- In the headers the machine is busy. -/
theorem AtHeader.state_ne (h : AtHeader regs stream ws base m s) (hm : m < headerCycles + 1) :
    s.sm.state ≠ .idle := by
  cases h with
  | udp _ _ h => rw [h.writing.state]; decide
  | ip _ _ h => rw [h.writing.state]; decide
  | ipChecked h => rw [h.state]; decide
  | mac _ _ h => rw [h.writing.state]; decide
  | committed _ => exact absurd hm (Nat.lt_irrefl _)

/-- After the headers the packet is in the buffer. -/
theorem AtHeader.committed_of_eq (h : AtHeader regs stream ws base m s)
    (hm : m = headerCycles + 1) : ∃ frag, Committed regs stream frag ws base s := by
  have hcycles : headerCycles = udpHdrCnt + ipHdrCnt + 1 + macHdrCnt := rfl
  cases h with
  | udp _ _ _ => omega
  | ip _ _ _ => omega
  | ipChecked _ => omega
  | mac _ _ _ => omega
  | committed h => exact ⟨_, h⟩

end Headers

/-! ## A packet -/

section Sent

variable {ram : GenericDpram txPktBufAdrsize 17} {regs : EthRegs} {stream : Fin numUdpPrts}
  {frag : TxInput} {ws : List Word}

/-- **The cycles of a packet** of a stream: the connection, the payload
with bubbles anywhere up to its last word, and the headers. -/
structure PacketCycles (regs : EthRegs) (stream : Fin numUdpPrts) where
  connect : TxInput × BitVec txPktBufAdrsize
  body : List (TxInput × BitVec txPktBufAdrsize)
  last : TxInput × BitVec txPktBufAdrsize
  header : List (TxInput × BitVec txPktBufAdrsize)
  connect_full : connect.1.full = false
  connect_request : connect.1.cpuTx.request = false
  connect_connected : connect.1.connected = true
  connect_valid : connect.1.txLlValid = false
  body_eop : ∀ c ∈ body, (c.1.txLlEop && c.1.txLlValid) = false
  last_eop : last.1.txLlEop = true
  last_valid : last.1.txLlValid = true
  last_regs : last.1.ethRegs = regs
  last_stream : last.1.stream = stream
  length_header : header.length = headerCycles

namespace PacketCycles

variable (p : PacketCycles regs stream)

def cycles : List (TxInput × BitVec txPktBufAdrsize) := p.connect :: p.body ++ p.last :: p.header

/-- The payload. -/
def words : List Word := p.body.flatMap takenWord ++ [p.last.1.txLlData]

theorem words_ne_nil : p.words ≠ [] := by simp [words]

/-- The payload is complete, and the headers begin. -/
theorem run_payload {s : TxWriteSide ram} (h : Ready regs s.sm)
    (hlen : payload + p.words.length ≤ maxReservPktBuf) :
    UdpWriting regs stream p.words s.sm.pktPtr 1
      (run TxWriteSide.step s (p.connect :: p.body ++ [p.last])) := by
  have hlen' : 21 + p.words.length ≤ 4507 := hlen
  rw [words, List.length_append, List.length_singleton] at hlen'
  have hsize : payload + (p.body.flatMap takenWord).length < 2 ^ txPktBufAdrsize := by
    change 21 + _ < 8192
    omega
  have hstart := streaming_connect h p.connect_full p.connect_request p.connect_connected
    (.inl p.connect_valid)
  have hbody := hstart.run p.body (by rwa [List.nil_append]) p.body_eop
  rw [List.nil_append] at hbody
  rw [List.cons_append, run_cons, run_append, run_cons, run_nil]
  exact hbody.udpWriting p.last_eop p.last_valid rfl p.last_regs p.last_stream hsize

/-- **The frame of a packet is left in the buffer**: from a ready machine,
a connection, a payload with bubbles anywhere up to its last word, and
the cycles of the headers. -/
theorem run_cycles {s : TxWriteSide ram} (h : Ready regs s.sm)
    (hlen : payload + p.words.length ≤ maxReservPktBuf) :
    ∃ frag, Committed regs stream frag p.words s.sm.pktPtr (run TxWriteSide.step s p.cycles) := by
  have hsize : payload + p.words.length ≤ 2 ^ txPktBufAdrsize := hlen.trans (by decide)
  have hstart : AtHeader regs stream p.words s.sm.pktPtr 1 _ :=
    .udp (by decide) (by decide) (p.run_payload h hlen)
  have hrun : AtHeader regs stream p.words s.sm.pktPtr (1 + p.header.length)
      (run TxWriteSide.step _ p.header) :=
    run_counted hstart fun m c _ s _ hm hs =>
      hs.step p.words_ne_nil hsize (by rw [p.length_header] at hm; omega)
  have hcycles : p.cycles = (p.connect :: p.body ++ [p.last]) ++ p.header := by
    rw [cycles, List.append_assoc]
    rfl
  rw [hcycles, run_append]
  exact hrun.committed_of_eq (by rw [p.length_header, Nat.add_comm])

/-- From the connection to the return the machine is busy. -/
theorem busy {s : TxWriteSide ram} (h : Ready regs s.sm)
    (hlen : payload + p.words.length ≤ maxReservPktBuf) :
    ∀ c ∈ (trace TxWriteSide.step s p.cycles).tail, c.1.sm.state ≠ .idle := by
  have hsize : payload + p.words.length ≤ 2 ^ txPktBufAdrsize := hlen.trans (by decide)
  have hstart := streaming_connect h p.connect_full p.connect_request p.connect_connected
    (.inl p.connect_valid)
  have hstep : ∀ (s : TxWriteSide ram) (c : TxInput × BitVec txPktBufAdrsize),
      (c.1.txLlEop && c.1.txLlValid) = false → s.sm.state = .moreData →
      (s.step c).sm.state = .moreData := by
    intro s c hmore hs
    simp [TxWriteSide.step, TxData2Buf.step, hs, hmore, toMoreData]
  have hq : ∀ c ∈ trace TxWriteSide.step (s.step p.connect) p.body,
      (c.2.1.txLlEop && c.2.1.txLlValid) = false :=
    fun c hc => p.body_eop c.2 (mem_of_mem_trace hc)
  have hbody := trace_guarded (p := fun s => s.sm.state = .moreData) hstart.state hstep hq
  have hlast := run_guarded (p := fun s => s.sm.state = .moreData) hstart.state hstep hq
  have hheader : AtHeader regs stream p.words s.sm.pktPtr 1 _ :=
    .udp (by decide) (by decide) (p.run_payload h hlen)
  rw [List.cons_append, run_cons, run_append, run_cons, run_nil] at hheader
  have htrace : (trace TxWriteSide.step s p.cycles).tail =
      trace TxWriteSide.step (s.step p.connect) p.body ++
        (run TxWriteSide.step (s.step p.connect) p.body, p.last) ::
          trace TxWriteSide.step ((run TxWriteSide.step (s.step p.connect) p.body).step p.last)
            p.header := by
    rw [cycles, List.cons_append, trace, List.tail_cons, trace_append]
    rfl
  -- connected, the payload, its last word, the headers
  rw [htrace]
  intro c hc
  rw [List.mem_append, List.mem_cons] at hc
  rcases hc with hc | rfl | hc
  · rw [hbody c hc]
    decide
  · rw [hlast]
    decide
  · obtain ⟨m, _, hm, hat, -⟩ := trace_counted hheader (fun m c _ s _ hm hs =>
      hs.step p.words_ne_nil hsize (by rw [p.length_header] at hm; omega)) c hc
    exact hat.state_ne (by rw [p.length_header] at hm; omega)

end PacketCycles

/-- The words between the packet pointers of two states: what was left in
the buffer. -/
def leftFrame (s s' : TxWriteSide ram) : List Word :=
  (List.range (s'.sm.pktPtr - s.sm.pktPtr).toNat).map fun k =>
    packetData (ram.contents s'.buffer (s.sm.pktPtr + BitVec.ofNat txPktBufAdrsize k))

theorem Committed.leftFrame_eq {s s' : TxWriteSide ram}
    (h : Committed regs stream frag ws s.sm.pktPtr s')
    (hlen : payload + ws.length ≤ maxReservPktBuf) :
    leftFrame s s' = txFrame regs stream frag ws := by
  have hlt : payload + ws.length < 2 ^ txPktBufAdrsize := Nat.lt_of_le_of_lt hlen (by decide)
  have hcount : (s'.sm.pktPtr - s.sm.pktPtr).toNat = payload + ws.length := by
    rw [h.pktPtr, add_sub_cancel_left, BitVec.toNat_ofNat, Nat.mod_eq_of_lt hlt]
  refine List.ext_getElem (by simp [leftFrame, hcount, length_txFrame]) fun k _ hk => ?_
  have hword := h.held k (by rwa [length_endMarked])
  rw [getElem_endMarked, Nat.zero_add, List.getD_eq_getElem _ _ hk] at hword
  simp only [leftFrame, List.getElem_map, List.getElem_range, hword, packetData_packetWord]

end Sent

end Ipmux

end WrCalibration
