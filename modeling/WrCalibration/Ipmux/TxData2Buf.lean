import WrCalibration.Common.Clocked
import WrCalibration.Ipmux.CheckSum

/-!
# From the streams to the transmit buffer

The state machine of `tx_data2buf` writes the payload of a packet behind
the space for its headers and then the headers in front of it, the last
ones first, since their lengths and checksums are known only then. The
signals it drives are registered, so a word is in the memory one cycle
after the machine has chosen it.
-/

namespace WrCalibration

namespace Ipmux

/-! ## The state -/

/-- `state_type` of `tx_data2buf`. -/
inductive TxState where
  | idle | moreData | udpWriteHeader | ipWriteHeader | ipWriteCheckSum | macWriteHeader
  | accessByCpu
  deriving DecidableEq

/-- The signals and variables of `tx_data2buf`. -/
structure TxData2Buf where
  state : TxState
  offset : ℕ
  pktPtr : BitVec txPktBufAdrsize
  pktEnd : BitVec txPktBufAdrsize
  rdReq : Bool
  connectReqIntern : Bool
  selSm : Bool
  wrEn : Bool
  cpuAccGnt : Bool
  dout : Word
  eopOut : Bool
  macHeaderRegFile : Vector Word macHdrCnt
  ipHeaderRegFile : Vector Word ipHdrCnt
  ipLength : Word
  udpHeaderRegFile : Vector Word udpHdrCnt
  udpLength : Word
  checkSum : BitVec 32
  idx : ℕ

/-- The inputs of a cycle. -/
structure TxInput where
  cpuTx : CpuTx := {}
  connected : Bool := false
  fragID : Word := 0
  fragOff : BitVec 12 := 0
  full : Bool := false
  moreFrag : Bool := false
  stream : Fin numUdpPrts := 0
  txLlData : Word := 0
  txLlEop : Bool := false
  txLlValid : Bool := false
  ethRegs : EthRegs

namespace TxData2Buf

variable (s : TxData2Buf) (i : TxInput)

/-! ## The headers -/

/-- What `InitHregFile` puts into the header of each protocol. -/
def initMacHeader (regs : EthRegs) : Vector Word macHdrCnt :=
  #v[wordOf 2 regs.macSrv, wordOf 1 regs.macSrv, wordOf 0 regs.macSrv,
    wordOf 2 regs.macMod, wordOf 1 regs.macMod, wordOf 0 regs.macMod, 0x0800]

@[inherit_doc initMacHeader]
def initIpHeader (regs : EthRegs) : Vector Word ipHdrCnt :=
  #v[0x4500, 0, 0, 0, 0x8011, 0, wordOf 1 regs.ipMod, wordOf 0 regs.ipMod,
    wordOf 1 regs.ipSrv, wordOf 0 regs.ipSrv]

@[inherit_doc initMacHeader]
def initUdpHeader : Vector Word udpHdrCnt := #v[0, 0, 0, 0]

/-- `Calc_UDP_PseudoHeader`: what the registers add to the UDP checksum. -/
def pseudoHeader (regs : EthRegs) : BitVec 32 :=
  wide (wordOf 1 regs.ipMod) + wide (wordOf 0 regs.ipMod) + wide (wordOf 1 regs.ipSrv) +
    wide (wordOf 0 regs.ipSrv) + wide 0x0011

/-- `Write_UDP_Ports_Length_and_CheckSum_To_HregFile`, without the
checksum. -/
def udpHeaderOf (header : Vector Word udpHdrCnt) (regs : EthRegs) (stream : Fin numUdpPrts)
    (udpLength : Word) : Vector Word udpHdrCnt :=
  ((header.set udpIdxSrcprt (regs.udpModPrt stream)).set udpIdxDstprt
    (regs.udpSrvPrt stream)).set udpIdxLen udpLength

/-- The ports of a header, in the sum of the UDP checksum. -/
def addPorts (checkSum : BitVec 32) (header : Vector Word udpHdrCnt) : BitVec 32 :=
  checkSum + wide header[udpIdxSrcprt] + wide header[udpIdxDstprt]

/-- The UDP checksum, in its place. -/
def setUdpChecks (header : Vector Word udpHdrCnt) (checkSum : BitVec 32) :
    Vector Word udpHdrCnt :=
  header.set udpIdxChecks (~~~lower checkSum)

/-- `Write_IP_Length_To_HregFile` -/
def ipHeaderOf (header : Vector Word ipHdrCnt) (ipLength fragID : Word) (moreFrag : Bool)
    (fragOff : BitVec 12) : Vector Word ipHdrCnt :=
  ((header.set ipIdxLen ipLength).set ipIdxId fragID).set ipIdxFlagsFragoff
    (0#2 ++ BitVec.ofBool moreFrag ++ 0#1 ++ fragOff)

/-! ## Actions -/

/-- The state after a reset; the header files keep what they held. -/
def reset : TxData2Buf :=
  { s with
    state := .idle, connectReqIntern := true, pktPtr := 0, pktEnd := 0, offset := payload
    rdReq := true, selSm := false, wrEn := false, cpuAccGnt := false, dout := 0, idx := 0
    checkSum := 0, eopOut := false }

/-- What is done on staying in `Idle`, and on returning to it. -/
def toIdle (pseudoHeader : BitVec 32) : TxData2Buf :=
  { s with
    state := .idle, offset := payload
    rdReq := !i.cpuTx.request, connectReqIntern := !i.cpuTx.request
    selSm := true, wrEn := false, cpuAccGnt := false, eopOut := false
    macHeaderRegFile := initMacHeader i.ethRegs
    ipHeaderRegFile := initIpHeader i.ethRegs
    udpHeaderRegFile := initUdpHeader
    checkSum := pseudoHeader }

/-- What is done on granting the CPU access, and while it has it. -/
def toAccessByCpu : TxData2Buf :=
  { s with
    state := .accessByCpu, offset := i.cpuTx.addr.toNat, rdReq := false, selSm := true
    wrEn := i.cpuTx.wrEn, cpuAccGnt := true, dout := i.cpuTx.d, eopOut := i.cpuTx.eop
    pktEnd := if i.cpuTx.eop && i.cpuTx.wrEn then i.cpuTx.addr else s.pktEnd
    connectReqIntern := false }

/-- What is done on connecting, and while data comes. -/
def toMoreData : TxData2Buf :=
  let taken := i.txLlValid && !s.connectReqIntern
  { s with
    state := .moreData, rdReq := true, selSm := false, wrEn := true, cpuAccGnt := false
    offset := if taken then s.offset + 1 else s.offset
    checkSum := if taken then s.checkSum + wide i.txLlData else s.checkSum
    connectReqIntern := false }

/-- A header word on its way to the memory, at the place `hdr + Idx`. -/
def writeWord (state : TxState) (hdr idx : ℕ) (d : Word) : TxData2Buf :=
  { s with
    state, rdReq := false, selSm := true, wrEn := true, cpuAccGnt := false, dout := d
    offset := hdr + idx, idx := idx + 1, connectReqIntern := false }

/-- The last word of the payload: the UDP header is complete. -/
def toUdpWriteHeader : TxData2Buf :=
  let udpLength := BitVec.ofNat 16 (2 * (udpHdrCnt + s.offset + 1 - payload))
  let header := udpHeaderOf s.udpHeaderRegFile i.ethRegs i.stream udpLength
  let checkSum := s.checkSum + wide i.txLlData + (0#15 ++ udpLength ++ 0#1)
  let checkSum := txFold (addPorts checkSum header)
  let header := setUdpChecks header checkSum
  { s with
    udpHeaderRegFile := header, udpLength, checkSum
    pktEnd := BitVec.ofNat txPktBufAdrsize s.offset }.writeWord .udpWriteHeader udpHdr 0
      (header.getD 0 0)

/-- The end of the UDP header: the IP header is complete but for its
checksum. -/
def toIpWriteHeader : TxData2Buf :=
  let ipLength := BitVec.ofNat 16 (2 * ipHdrCnt) + s.udpLength
  let header := ipHeaderOf s.ipHeaderRegFile ipLength i.fragID i.moreFrag i.fragOff
  { s with
    ipHeaderRegFile := header, ipLength, checkSum := wide (header.getD 0 0) }.writeWord
      .ipWriteHeader ipHdr 0 (header.getD 0 0)

/-- The end of the IP header: its checksum is written into its place. -/
def toIpWriteCheckSum : TxData2Buf :=
  let checkSum := txFold s.checkSum
  { s with
    state := .ipWriteCheckSum, checkSum, rdReq := false, selSm := true, wrEn := true
    cpuAccGnt := false, dout := ~~~lower checkSum, offset := ipHdr + ipIdxChecks
    connectReqIntern := false }

/-! ## The machine -/

/-- **One clock edge** of `tx_data2buf`. -/
def step (pseudoHeader : BitVec 32) : TxData2Buf :=
  match s.state with
  | .idle =>
    if !i.full && i.cpuTx.request then s.toAccessByCpu i
    else if !i.full && i.connected then s.toMoreData i
    else s.toIdle i pseudoHeader
  | .moreData =>
    if i.txLlEop && i.txLlValid then s.toUdpWriteHeader i else s.toMoreData i
  | .udpWriteHeader =>
    if s.idx = udpHdrCnt then s.toIpWriteHeader i
    else s.writeWord .udpWriteHeader udpHdr s.idx (s.udpHeaderRegFile.getD s.idx 0)
  | .ipWriteHeader =>
    if s.idx = ipHdrCnt then s.toIpWriteCheckSum
    else
      let w := s.ipHeaderRegFile.getD s.idx 0
      { s with checkSum := s.checkSum + wide w }.writeWord .ipWriteHeader ipHdr s.idx w
  | .ipWriteCheckSum => s.writeWord .macWriteHeader macHdr 0 (s.macHeaderRegFile.getD 0 0)
  | .macWriteHeader =>
    if s.idx = macHdrCnt then
      { s with pktPtr := s.pktPtr + s.pktEnd + 1 }.toIdle i pseudoHeader
    else s.writeWord .macWriteHeader macHdr s.idx (s.macHeaderRegFile.getD s.idx 0)
  | .accessByCpu =>
    if !i.cpuTx.request then
      { s with pktPtr := s.pktPtr + s.pktEnd + 1 }.toIdle i pseudoHeader
    else s.toAccessByCpu i

/-- What an edge comes to, from whatever state. -/
inductive Edge (s : TxData2Buf) (i : TxInput) (p : BitVec 32) : TxData2Buf → Prop
  | toIdle {s₀ : TxData2Buf} : Edge s i p (s₀.toIdle i p)
  | toMoreData : Edge s i p (s.toMoreData i)
  | toAccessByCpu : Edge s i p (s.toAccessByCpu i)
  | writeWord {s₀ : TxData2Buf} {state : TxState} {hdr idx : ℕ} {d : Word} :
    state ≠ .idle → state ≠ .moreData → Edge s i p (s₀.writeWord state hdr idx d)
  | toIpWriteCheckSum : Edge s i p s.toIpWriteCheckSum

theorem edge_step (p : BitVec 32) : Edge s i p (s.step i p) := by
  unfold step
  cases hs : s.state with
  | idle =>
    simp only
    split
    · exact .toAccessByCpu
    · split
      · exact .toMoreData
      · exact .toIdle
  | moreData =>
    simp only
    split
    · exact .writeWord (by decide) (by decide)
    · exact .toMoreData
  | udpWriteHeader =>
    simp only
    split
    · exact .writeWord (by decide) (by decide)
    · exact .writeWord (by decide) (by decide)
  | ipWriteHeader =>
    simp only
    split
    · exact .toIpWriteCheckSum
    · exact .writeWord (by decide) (by decide)
  | ipWriteCheckSum => exact .writeWord (by decide) (by decide)
  | macWriteHeader =>
    simp only
    split
    · exact .toIdle
    · exact .writeWord (by decide) (by decide)
  | accessByCpu =>
    simp only
    split
    · exact .toIdle
    · exact .toAccessByCpu

/-- `WrAddr`, `PktWrPtr`, `TX_LL_RDREQ` and `ConnectReq`. -/
def wrAddr : BitVec txPktBufAdrsize := s.pktPtr + BitVec.ofNat txPktBufAdrsize s.offset

@[inherit_doc wrAddr] def pktWrPtr : BitVec txPktBufAdrsize := s.pktPtr

@[inherit_doc wrAddr] def txLlRdreq : Bool := s.rdReq && !i.full

@[inherit_doc wrAddr] def connectReq : Bool := s.connectReqIntern

end TxData2Buf

/-! ## The write side of the buffer -/

/-- `TxWrDataSrcSel`: the write enable, the end-of-packet bit and the word
at the memory. -/
def txWrDataSrcSel (s : TxData2Buf) (i : TxInput) : Bool × Bool × Word :=
  if s.selSm then (s.wrEn, s.eopOut, s.dout) else (i.txLlValid, i.txLlEop, i.txLlData)

/-- `tx_data2buf` with `Calc_UDP_PseudoHeader`, `TxWrDataSrcSel` and the
packet buffer, as `TxBuffers` connects them. -/
structure TxWriteSide (ram : GenericDpram txPktBufAdrsize 17) where
  sm : TxData2Buf
  pseudoHeader : BitVec 32
  buffer : ram.State

namespace TxWriteSide

variable {ram : GenericDpram txPktBufAdrsize 17}

/-- One clock edge; the read address of the packet buffer comes from the
other side. -/
def step (s : TxWriteSide ram) (c : TxInput × BitVec txPktBufAdrsize) : TxWriteSide ram :=
  let (we, eop, d) := txWrDataSrcSel s.sm c.1
  { sm := s.sm.step c.1 s.pseudoHeader
    pseudoHeader := TxData2Buf.pseudoHeader c.1.ethRegs
    buffer := ram.step s.buffer we s.sm.wrAddr (packetWord eop d) c.2 }

end TxWriteSide

end Ipmux

end WrCalibration
