import WrCalibration.Common.Clocked
import WrCalibration.Ipmux.CheckSum

/-!
# From the receive buffer to the streams

The state machine of `rx_buf2data` reads the headers of a frame from the
buffer, checks them, picks a stream by the destination port and passes
the payload on. The buffer answers one cycle after it was addressed, so
the machine runs one address ahead of the word it looks at.
-/

namespace WrCalibration

namespace Ipmux

/-! ## The state -/

/-- `state_type` of `rx_buf2data`. -/
inductive RxState where
  | idle | startMemAcc | readHeader | headerChecks | statusOut | transferData
  | transferOtherData
  deriving DecidableEq

/-- One bit for each stream, the CPU last. -/
abbrev Streams := Fin (numUdpPrts + 1) → Bool

/-- The CPU stream, "the default stream". -/
def defaultStream : Streams := fun k => decide (k = Fin.last numUdpPrts)

/-- The length of the header file. -/
abbrev headerCnt : ℕ := macHdrCnt + ipHdrCnt + udpHdrCnt

/-- The signals and variables of `rx_buf2data`. -/
structure RxBuf2Data where
  state : RxState
  offset : ℕ
  pktPtr : BitVec rxPktBufAdrsize
  errorVector : BitVec 8
  wrReqIntern : Bool
  sodIntern : Bool
  eodOut : Bool
  streamIntern : Streams
  fragID : Word
  moreFrags : Bool
  fragOff : BitVec 12
  udpCheckSumErr : Bool
  packetHeaderRegFile : Vector Word headerCnt
  ipLength : Word
  payloadLength : Word
  ipCheckSum : BitVec 32
  udpCheckSum : BitVec 32
  idx : ℕ

/-- The ticks between an address and its data. -/
def memAccTicks : ℕ := 1

namespace RxBuf2Data

variable (s : RxBuf2Data)

/-! ## Actions -/

/-- `Initialize` -/
def initialise : RxBuf2Data :=
  { s with
    packetHeaderRegFile := Vector.replicate headerCnt 0, idx := 0, offset := macHdr
    wrReqIntern := false, ipCheckSum := 0, udpCheckSum := 0, ipLength := 0, payloadLength := 0
    errorVector := 0, fragID := 0, moreFrags := false, fragOff := 0
    streamIntern := defaultStream, sodIntern := false, eodOut := false }

/-- The state after a reset. -/
def reset : RxBuf2Data :=
  { s with state := .idle, pktPtr := 0, udpCheckSumErr := false }.initialise

/-- The next address, while the first data is awaited. -/
def startMemAcc : RxBuf2Data :=
  { s with
    state := .startMemAcc, idx := s.idx + 1, offset := macHdr + (s.idx + 1)
    udpCheckSumErr := false }

/-- One word of the headers. -/
def readHeader (din : Word) : RxBuf2Data :=
  let k := s.idx - memAccTicks
  { s with
    state := .readHeader
    packetHeaderRegFile := s.packetHeaderRegFile.setIfInBounds k din
    ipCheckSum := if ipHdr ≤ k ∧ k < udpHdr then s.ipCheckSum + wide din else s.ipCheckSum
    udpCheckSum := if udpHdr ≤ k ∧ k < payload then s.udpCheckSum + wide din else s.udpCheckSum
    idx := s.idx + 1, offset := macHdr + (s.idx + 1) }

/-- A word of the header file. -/
def header (k : ℕ) : Word := s.packetHeaderRegFile.getD k 0

/-- The bits of the error vector: what is wrong with the headers. -/
def headerErrors (ipCheckSum : BitVec 32) : BitVec 8 :=
  (if s.header (macHdr + macIdxLen) ≠ ethTypeII then 1 else 0) |||
    (if lower ipCheckSum ≠ 0 then 2 else 0) |||
    (if (s.header (ipHdr + ipIdxVerLenTos)).extractLsb' 8 8 ≠ ipVerLen then 4 else 0) |||
    (if (s.header (ipHdr + ipIdxTtlProt)).extractLsb' 0 8 ≠ ipProtUdp then 8 else 0)

/-- The end of the headers: what can be checked of them is. -/
def headersRead : RxBuf2Data :=
  let ipCheckSum := rxFold s.ipCheckSum
  let ipLength := s.header (ipHdr + ipIdxLen)
  { s with
    state := .headerChecks, ipCheckSum, ipLength, streamIntern := defaultStream, offset := 0
    payloadLength := ipLength / 2 + BitVec.ofNat 16 macHdrCnt
    errorVector := s.errorVector ||| s.headerErrors ipCheckSum
    sodIntern := true }

/-- The streams whose port is the destination port of the frame. -/
def portStreams (regs : EthRegs) : Fin numUdpPrts → Bool := fun k =>
  decide (regs.udpModPrt k = s.header (udpHdr + udpIdxDstprt))

/-- A frame without errors: its stream is picked, and the checksum of its
pseudo header prepared. -/
def pickStream (regs : EthRegs) : RxBuf2Data :=
  let found := (List.finRange numUdpPrts).any (s.portStreams regs)
  let flags := s.header (ipHdr + ipIdxFlagsFragoff)
  { s with
    state := .statusOut
    fragID := s.header (ipHdr + ipIdxId), moreFrags := flags.getLsbD 13
    fragOff := flags.extractLsb' 0 12
    streamIntern := Fin.lastCases (!found) (s.portStreams regs)
    offset := if found then payload else 0
    payloadLength :=
      if found then s.ipLength / 2 - BitVec.ofNat 16 ipHdrCnt - BitVec.ofNat 16 udpHdrCnt
      else s.ipLength / 2 + BitVec.ofNat 16 macHdrCnt
    udpCheckSum := s.udpCheckSum + wide (s.header (ipHdr + ipIdxIpSrc)) +
      wide (s.header (ipHdr + ipIdxIpSrc + 1)) + wide (s.header (ipHdr + ipIdxIpDst)) +
      wide (s.header (ipHdr + ipIdxIpDst + 1)) +
      ((s.header (ipHdr + ipIdxTtlProt)).extractLsb' 0 8).setWidth 32 +
      wide (s.header (udpHdr + udpIdxLen)) }

/-- The start-of-data bit goes down with the first word written. -/
def nextSod : Bool := s.sodIntern && !s.wrReqIntern

/-- One cycle of the payload of a stream. -/
def transferData (din : Word) (full : Bool) : RxBuf2Data :=
  if full then { s with state := .transferData, wrReqIntern := false }
  else
    let some := decide (0 < s.payloadLength.toNat)
    { s with
      state := .transferData, offset := s.offset + 1, sodIntern := s.nextSod
      eodOut := decide (s.payloadLength = 1), wrReqIntern := some
      payloadLength := if some then s.payloadLength - 1 else s.payloadLength
      udpCheckSum := if some then s.udpCheckSum + wide din else s.udpCheckSum }

/-- One cycle of a frame for the CPU. -/
def transferOtherData (full : Bool) : RxBuf2Data :=
  if full then { s with state := .transferOtherData, wrReqIntern := false }
  else
    { s with
      state := .transferOtherData, offset := s.offset + 1, sodIntern := s.nextSod
      wrReqIntern := true }

/-- The frame is done: the pointer moves over it. -/
def nextPacket : RxBuf2Data :=
  { s with
    state := .idle
    pktPtr := s.pktPtr + BitVec.ofNat rxPktBufAdrsize s.offset }.initialise

/-- `FinalizeUDP_CheckSum` -/
def finalizeUdpCheckSum (din : Word) : RxBuf2Data :=
  let udpCheckSum := if s.wrReqIntern then s.udpCheckSum + wide din else s.udpCheckSum
  { s with udpCheckSumErr := decide (lower (rxFold udpCheckSum) ≠ 0) }

/-! ## The machine -/

/-- **One clock edge** of `rx_buf2data`. -/
def step (empty full : Bool) (eofIn : Bool) (din : Word) (regs : EthRegs) : RxBuf2Data :=
  match s.state with
  | .idle => if !empty then s.startMemAcc else s.initialise
  | .startMemAcc => if s.idx = memAccTicks then s.readHeader din else s.startMemAcc
  | .readHeader => if s.idx = memAccTicks + payload then s.headersRead else s.readHeader din
  | .headerChecks =>
    if s.errorVector ≠ 0 then s.transferOtherData full else s.pickStream regs
  | .statusOut =>
    if s.streamIntern (Fin.last numUdpPrts) then s.transferOtherData full
    else s.transferData din full
  | .transferData =>
    if eofIn && decide (s.payloadLength = 0) then (s.finalizeUdpCheckSum din).nextPacket
    else s.transferData din full
  | .transferOtherData =>
    if eofIn && s.wrReqIntern then s.nextPacket else s.transferOtherData full

/-- What an edge comes to, and from which states. -/
inductive Edge (s : RxBuf2Data) (full : Bool) (din : Word) (regs : EthRegs) : RxBuf2Data → Prop
  | initialise {s₀ : RxBuf2Data} : Edge s full din regs s₀.initialise
  | startMemAcc : s.state = .idle ∨ s.state = .startMemAcc → Edge s full din regs s.startMemAcc
  | readHeader : s.state = .startMemAcc ∨ s.state = .readHeader →
    Edge s full din regs (s.readHeader din)
  | headersRead : s.state = .readHeader → Edge s full din regs s.headersRead
  | pickStream : s.state = .headerChecks → s.errorVector = 0 →
    Edge s full din regs (s.pickStream regs)
  | transferData : s.state = .statusOut ∨ s.state = .transferData →
    Edge s full din regs (s.transferData din full)
  | transferOtherData : s.state = .headerChecks ∨ s.state = .statusOut ∨
    s.state = .transferOtherData → Edge s full din regs (s.transferOtherData full)

theorem edge_step (empty full eofIn : Bool) (din : Word) (regs : EthRegs) :
    Edge s full din regs (s.step empty full eofIn din regs) := by
  unfold step
  cases hs : s.state with
  | idle =>
    simp only
    split
    · exact .startMemAcc (.inl hs)
    · exact .initialise
  | startMemAcc =>
    simp only
    split
    · exact .readHeader (.inl hs)
    · exact .startMemAcc (.inr hs)
  | readHeader =>
    simp only
    split
    · exact .headersRead hs
    · exact .readHeader (.inr hs)
  | headerChecks =>
    simp only
    split
    · exact .transferOtherData (.inl hs)
    · rename_i herr
      exact .pickStream hs (not_not.1 herr)
  | statusOut =>
    simp only
    split
    · exact .transferOtherData (.inr (.inl hs))
    · exact .transferData (.inl hs)
  | transferData =>
    simp only
    split
    · exact .initialise
    · exact .transferData (.inr hs)
  | transferOtherData =>
    simp only
    split
    · exact .initialise
    · exact .transferOtherData (.inr (.inr hs))

theorem state_transferData (din : Word) (full : Bool) :
    (s.transferData din full).state = .transferData := by
  unfold transferData
  split
  · rfl
  · rfl

theorem state_transferOtherData (full : Bool) :
    (s.transferOtherData full).state = .transferOtherData := by
  unfold transferOtherData
  split
  · rfl
  · rfl

/-- `RdAddr` -/
def rdAddr : BitVec rxPktBufAdrsize := s.pktPtr + BitVec.ofNat rxPktBufAdrsize s.offset

end RxBuf2Data

/-! ## The streams -/

/-- `Fullout` of `RxStreamSel`: of the selected streams the last one of the
loop counts. -/
def fullout (stream full : Streams) : Bool :=
  match (List.finRange (numUdpPrts + 1)).find? stream with
  | some k => full k
  | none => false

/-- What `RxStreamSel` puts on a stream, and its write request. -/
def rxStreamSel (s : RxBuf2Data) (din : Word) (eofIn : Bool) (k : Fin (numUdpPrts + 1)) :
    Bool × Dbus :=
  let eod := s.streamIntern k && s.eodOut
  (s.streamIntern k && s.wrReqIntern,
    { d := if s.streamIntern k then din else 0
      eod := if k = Fin.last numUdpPrts then eofIn else eod })

/-! ## The read side of the buffer -/

/-- The inputs of a cycle: the flags and registers, and what `rx_mac2buf`
writes into the buffer. -/
structure RxInput where
  empty : Bool := false
  full : Streams := fun _ => false
  ethRegs : EthRegs
  we : Bool := false
  wrAddr : BitVec rxPktBufAdrsize := 0
  d : BitVec 17 := 0

/-- `rx_buf2data` with `RxStreamSel` and the packet buffer, as `RxBuffers`
connects them. -/
structure RxReadSide (ram : GenericDpram rxPktBufAdrsize 17) where
  sm : RxBuf2Data
  buffer : ram.State

namespace RxReadSide

variable {ram : GenericDpram rxPktBufAdrsize 17} (s : RxReadSide ram)

/-- The word the buffer shows. -/
def q : BitVec 17 := ram.qb s.buffer

/-- One clock edge. -/
def step (c : RxInput) : RxReadSide ram where
  sm := s.sm.step c.empty (fullout s.sm.streamIntern c.full) (packetEop s.q) (packetData s.q)
    c.ethRegs
  buffer := ram.step s.buffer c.we c.wrAddr c.d s.sm.rdAddr

/-- A reset of the machine; the buffer keeps its words. -/
def reset : RxReadSide ram := { s with sm := s.sm.reset }

/-- What a cycle writes to a stream. -/
def written (k : Fin (numUdpPrts + 1)) (c : RxReadSide ram × RxInput) : Option Dbus :=
  let (wrReq, d) := rxStreamSel c.1.sm (packetData c.1.q) (packetEop c.1.q) k
  if wrReq then some d else none

end RxReadSide

end Ipmux

end WrCalibration
