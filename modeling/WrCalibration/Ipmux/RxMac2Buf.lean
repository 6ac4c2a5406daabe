import WrCalibration.Ipmux.Package

/-!
# From the MAC to the receive buffer

`rx_mac2buf` takes the words of a fabric cycle. That a data word is the
last one of its frame is known only when the next thing on the fabric is
no data word, so each word waits in a pipeline of one place until then.
-/

namespace WrCalibration

namespace Ipmux

/-- The inputs of a cycle: those of the fabric, the full flag, and the read
address of the packet buffer. -/
structure SnkInput where
  cyc : Bool := false
  stb : Bool := false
  we : Bool := true
  adr : BitVec 2 := 0
  dat : Word := 0
  full : Bool := false
  rdAddr : BitVec rxPktBufAdrsize := 0

/-- The signals of `rx_mac2buf`. -/
structure RxMac2Buf where
  snkCycD0 : Bool
  qDataP1 : Word
  qValidP1 : Bool
  qAdrP1 : BitVec 2
  ack : Bool
  goodFrame : Bool
  badFrame : Bool
  offset : ℕ
  pktPtr : BitVec rxPktBufAdrsize

namespace RxMac2Buf

variable (wrf : WrFabric) (s : RxMac2Buf) (i : SnkInput)

/-- The state after a reset. -/
def reset : RxMac2Buf where
  snkCycD0 := false
  qDataP1 := 0
  qValidP1 := false
  qAdrP1 := 0
  ack := false
  goodFrame := false
  badFrame := false
  offset := 0
  pktPtr := 0

/-! ## Signals -/

/-- `rd_req` is always asserted, and the fabric never stalled. -/
def rdReq : Bool := true

@[inherit_doc rdReq] def stallInt : Bool := !rdReq

def eocycle : Bool := s.snkCycD0 && !i.cyc

def snkValid : Bool := (i.cyc && i.stb && i.we) && !stallInt

def adrChange : Bool := decide (s.qAdrP1 = wrf.wrfData ∧ i.adr ≠ wrf.wrfData)

def shiftPipeline : Bool := snkValid i || s.adrChange wrf i || s.eocycle i

/-- `EOF` -/
def eof : Bool := s.eocycle i || s.adrChange wrf i

/-- `We` and `Overflow`: a word that leaves the pipeline is written, or
lost. -/
def weInt : Bool := if s.qValidP1 && !i.full then s.shiftPipeline wrf i else false

@[inherit_doc weInt]
def overflow : Bool := if s.qValidP1 && i.full then s.shiftPipeline wrf i else false

/-- `WrAddr` -/
def wrAddr : BitVec rxPktBufAdrsize := s.pktPtr + BitVec.ofNat rxPktBufAdrsize s.offset

/-! ## The machine -/

/-- `p_pipeline` -/
def pipeline : RxMac2Buf :=
  if s.shiftPipeline wrf i then
    { s with
      qDataP1 := i.dat, qAdrP1 := i.adr
      qValidP1 := if i.adr = wrf.wrfData then snkValid i else false }
  else s

/-- `RxPktBufPointers` -/
def pointers : ℕ × BitVec rxPktBufAdrsize :=
  if s.weInt wrf i then (s.offset + 1, s.pktPtr)
  else if s.goodFrame then (0, s.pktPtr + BitVec.ofNat rxPktBufAdrsize s.offset)
  else if s.badFrame then (0, s.pktPtr)
  else (s.offset, s.pktPtr)

/-- **One clock edge** of `rx_mac2buf`. -/
def step : RxMac2Buf :=
  { s.pipeline wrf i with
    snkCycD0 := i.cyc, ack := snkValid i, goodFrame := s.eocycle i, badFrame := false
    offset := (s.pointers wrf i).1, pktPtr := (s.pointers wrf i).2 }

end RxMac2Buf

/-! ## The write side of the buffer -/

/-- `rx_mac2buf` with the packet buffer, as `RxBuffers` connects them. -/
structure RxWriteSide (ram : GenericDpram rxPktBufAdrsize 17) where
  sm : RxMac2Buf
  buffer : ram.State

namespace RxWriteSide

variable {ram : GenericDpram rxPktBufAdrsize 17} (wrf : WrFabric) (s : RxWriteSide ram)

/-- One clock edge. -/
def step (i : SnkInput) : RxWriteSide ram where
  sm := s.sm.step wrf i
  buffer := ram.step s.buffer (s.sm.weInt wrf i) s.sm.wrAddr
    (packetWord (s.sm.eof wrf i) s.sm.qDataP1) i.rdAddr

/-- A reset of the machine; the buffer keeps its words. -/
def reset : RxWriteSide ram := { s with sm := RxMac2Buf.reset }

/-- What a cycle writes to the buffer, and where. -/
def written (c : RxWriteSide ram × SnkInput) :
    Option (BitVec rxPktBufAdrsize × BitVec 17) :=
  if c.1.sm.weInt wrf c.2 then
    some (c.1.sm.wrAddr, packetWord (c.1.sm.eof wrf c.2) c.1.sm.qDataP1)
  else none

end RxWriteSide

end Ipmux

end WrCalibration
