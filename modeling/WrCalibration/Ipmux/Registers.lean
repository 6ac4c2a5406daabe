import WrCalibration.Common.Wishbone
import WrCalibration.Ipmux.Package

/-!
# The registers and the interface of the CPU

`ipmux_regs_and_rxtxcpu` is two slaves on the bus. One reads and writes the
registers; the other hands the words of the CPU to the transmit buffer and
takes those of its receive FIFO. Both register their acknowledge; what they
pass on comes from the bus directly.
-/

namespace WrCalibration

namespace Ipmux

open Wishbone

/-- The registers of `ipmux_regs_and_rxtxcpu`. -/
structure Registers where
  ackReg : Bool
  ackTxrx : Bool
  regDat : BitVec 32
  ethRegs : EthRegs
  flush : BitVec 5
  txRequest : Bool
  divRatio : BitVec 32
  numwords : BitVec 14
  numpackets : BitVec 10
  udptstcntr : BitVec 3

/-- The inputs of a cycle. -/
structure RegistersInput where
  cpuAccGnt : Bool := false
  packetsDone : BitVec 4 := 0
  rxEmpty : BitVec 5 := 0
  txStreamDebug : BitVec 12 := 0
  txFull : BitVec 4 := 0
  cpuRx : Dbus := ⟨0, false⟩
  wbReg : SlaveIn := {}
  wbRxTx : SlaveIn := {}

namespace Registers

variable (s : Registers) (i : RegistersInput)

/-- The state after a reset. -/
def reset : Registers where
  ackReg := false
  ackTxrx := false
  regDat := 0
  ethRegs := {
    macMod := 0, macSrv := 0, ipMod := 0, ipSrv := 0, udpSrvPrt := fun _ => 0
    udpModPrt := fun _ => 0 }
  flush := 0
  txRequest := false
  divRatio := 2422
  numwords := 4
  numpackets := 16
  udptstcntr := 0

/-- The register an address names. -/
def index (adr : BitVec 32) : ℕ := (adr.extractLsb' 2 6).toNat

/-- The status and control word, register `0x0A`. -/
def statusWord : BitVec 32 :=
  0#4 ++ i.txFull ++ 0#3 ++ i.rxEmpty ++ 0#3 ++ s.flush ++ 0#6 ++ BitVec.ofBool i.cpuAccGnt ++
    BitVec.ofBool s.txRequest

/-- The two ports of a stream in one register. -/
def udpPorts (k : Fin numUdpPrts) : BitVec 32 := s.ethRegs.udpSrvPrt k ++ s.ethRegs.udpModPrt k

/-- `wb_read_reg`: what a read of a register shows. -/
def readReg : BitVec 32 :=
  match index i.wbReg.adr with
  | 0x00 => s.ethRegs.macSrv.extractLsb' 0 32
  | 0x01 => 0#16 ++ s.ethRegs.macSrv.extractLsb' 32 16
  | 0x02 => s.ethRegs.macMod.extractLsb' 0 32
  | 0x03 => 0#16 ++ s.ethRegs.macMod.extractLsb' 32 16
  | 0x04 => s.ethRegs.ipSrv
  | 0x05 => s.ethRegs.ipMod
  | 0x06 => s.udpPorts 0
  | 0x07 => s.udpPorts 1
  | 0x08 => s.udpPorts 2
  | 0x09 => s.udpPorts 3
  | 0x0A => s.statusWord i
  | 0x10 => s.divRatio
  | 0x11 => 0#16 ++ 0#2 ++ s.numwords
  | 0x12 => 0#20 ++ 0#2 ++ s.numpackets
  | 0x13 => 0#28 ++ 0#1 ++ s.udptstcntr
  | 0x14 => 0#16 ++ i.packetsDone ++ i.txStreamDebug
  | _ => 0

/-- The ports of a stream, written. -/
def writePorts (k : Fin numUdpPrts) (dat : BitVec 32) : Registers :=
  { s with
    ethRegs := { s.ethRegs with
      udpSrvPrt := Function.update s.ethRegs.udpSrvPrt k (dat.extractLsb' 16 16)
      udpModPrt := Function.update s.ethRegs.udpModPrt k (dat.extractLsb' 0 16) } }

/-- `wb_write_reg`: what a write to a register leaves. -/
def writeReg (adr dat : BitVec 32) : Registers :=
  match index adr with
  | 0x00 => { s with ethRegs := { s.ethRegs with
      macSrv := s.ethRegs.macSrv.extractLsb' 32 16 ++ dat } }
  | 0x01 => { s with ethRegs := { s.ethRegs with
      macSrv := dat.extractLsb' 0 16 ++ s.ethRegs.macSrv.extractLsb' 0 32 } }
  | 0x02 => { s with ethRegs := { s.ethRegs with
      macMod := s.ethRegs.macMod.extractLsb' 32 16 ++ dat } }
  | 0x03 => { s with ethRegs := { s.ethRegs with
      macMod := dat.extractLsb' 0 16 ++ s.ethRegs.macMod.extractLsb' 0 32 } }
  | 0x04 => { s with ethRegs := { s.ethRegs with ipSrv := dat } }
  | 0x05 => { s with ethRegs := { s.ethRegs with ipMod := dat } }
  | 0x06 => s.writePorts 0 dat
  | 0x07 => s.writePorts 1 dat
  | 0x08 => s.writePorts 2 dat
  | 0x09 => s.writePorts 3 dat
  | 0x0A => { s with txRequest := dat.getLsbD 0, flush := dat.extractLsb' 8 5 }
  | 0x10 => { s with divRatio := dat }
  | 0x11 => { s with numwords := dat.extractLsb' 0 14 }
  | 0x12 => { s with numpackets := dat.extractLsb' 0 10 }
  | 0x13 => { s with udptstcntr := dat.extractLsb' 0 3 }
  | _ => s

/-- **One clock edge** of both slaves. -/
def step : Registers :=
  { (if i.wbReg.write then s.writeReg i.wbReg.adr i.wbReg.dat else s) with
    ackReg := i.wbReg.ackNext s.ackReg
    ackTxrx := i.wbRxTx.ackNext s.ackTxrx
    regDat := if i.wbReg.read then s.readReg i else s.regDat }

/-- `CPU_Tx`, with `addr_range_check`: the address of a word is that of the
bus without its upper bits, and one bit narrower than that of the buffer. -/
def cpuTx : CpuTx :=
  let addr := (i.wbRxTx.adr.extractLsb' 2 (txPktBufAdrsize - 1)).setWidth txPktBufAdrsize
  let inRange := decide (addr.toNat ≤ maxReservPktBuf)
  { request := s.txRequest
    eop := i.wbRxTx.dat.getLsbD 16
    d := i.wbRxTx.dat.extractLsb' 0 16
    addr := if inRange then addr else 0
    wrEn := inRange && i.wbRxTx.write }

/-- `cpu_rdreq` -/
def cpuRdreq : Bool := i.wbRxTx.read

/-- `wb_ipmux_rx_tx_o.dat` -/
def rxTxDat : BitVec 32 := 0#12 ++ 0#3 ++ BitVec.ofBool i.cpuRx.eod ++ i.cpuRx.d

/-! ## What an edge keeps -/

/-- The request of the CPU, and the flush bits. -/
def control : Bool × BitVec 5 := (s.txRequest, s.flush)

/-- Only a write to the control register sets them. -/
theorem control_writeReg (adr dat : BitVec 32) :
    (s.writeReg adr dat).control =
      if index adr = 0x0A then (dat.getLsbD 0, dat.extractLsb' 8 5) else s.control := by
  by_cases hindex : index adr = 0x0A
  · rw [if_pos hindex]
    simp only [writeReg, hindex, control]
  · rw [if_neg hindex]
    unfold writeReg
    split <;> first | rfl | contradiction

theorem control_step :
    (s.step i).control =
      if i.wbReg.write then (s.writeReg i.wbReg.adr i.wbReg.dat).control else s.control := by
  cases hwrite : i.wbReg.write with
  | true => simp only [control, step, hwrite, if_true]
  | false => simp only [control, step, hwrite, Bool.false_eq_true, if_false]

variable {s i}

/-- What holds of the control word holds after an edge, if it holds of what
is written to it. -/
theorem control_invariant (P : Bool × BitVec 5 → Prop) (h : P s.control)
    (hwritten : i.wbReg.write = true → index i.wbReg.adr = 0x0A →
      P (i.wbReg.dat.getLsbD 0, i.wbReg.dat.extractLsb' 8 5)) : P (s.step i).control := by
  rw [control_step]
  split
  · rename_i hwrite
    rw [control_writeReg]
    split
    · rename_i hindex
      exact hwritten hwrite hindex
    · exact h
  · exact h

end Registers

end Ipmux

end WrCalibration
