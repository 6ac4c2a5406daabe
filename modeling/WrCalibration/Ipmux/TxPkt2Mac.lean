import WrCalibration.Ipmux.TxData2Buf

/-!
# From the transmit buffer to the MAC

`tx_pkt2mac` sends the packets of the buffer to the fabric. The buffer
answers one cycle late, so the machine asks for a word ahead of the one it
shows, and takes that back when the MAC stalls. `PktBufFlags` compares the
two packet pointers: the ring is empty where they are equal, and full
where a packet of the greatest length might not find room.
-/

namespace WrCalibration

namespace Ipmux

/-! ## The flags -/

namespace PktBufFlags

variable {abits : ℕ} (pktRdPtr pktWrPtr : BitVec abits)

/-- `Empty` -/
def empty : Bool := decide (pktRdPtr = pktWrPtr)

/-- `Full` -/
def full : Bool :=
  decide (pktRdPtr - pktWrPtr ≤ BitVec.ofNat abits maxReservPktBuf ∧ pktRdPtr ≠ pktWrPtr)

/-- `LowLevelPerc` and `HighLevelPerc`. -/
def lowLevelPerc : ℕ := 30

@[inherit_doc lowLevelPerc] def highLevelPerc : ℕ := 50

/-- `WaterMarkLow` -/
def waterMarkLow : Bool :=
  decide (pktWrPtr - pktRdPtr < BitVec.ofNat abits (2 ^ abits * lowLevelPerc / 100))

/-- `WaterMarkHigh` -/
def waterMarkHigh : Bool :=
  decide (pktWrPtr - pktRdPtr > BitVec.ofNat abits (2 ^ abits * highLevelPerc / 100) ∧
    pktRdPtr ≠ pktWrPtr)

variable {pktRdPtr pktWrPtr}

/-- **The water marks exclude each other.** -/
theorem waterMarkLow_of_high (h : waterMarkHigh pktRdPtr pktWrPtr = true) :
    waterMarkLow pktRdPtr pktWrPtr = false := by
  have hpow : 0 < 2 ^ abits := Nat.two_pow_pos abits
  rw [waterMarkHigh, decide_eq_true_eq, gt_iff_lt, BitVec.lt_def, BitVec.toNat_ofNat,
    highLevelPerc, Nat.mod_eq_of_lt (by omega)] at h
  rw [waterMarkLow, decide_eq_false_iff_not, BitVec.lt_def, BitVec.toNat_ofNat, lowLevelPerc,
    Nat.mod_eq_of_lt (by omega)]
  omega

end PktBufFlags

/-! ## The machine -/

/-- `state_type` of `tx_pkt2mac`. -/
inductive TxMacState where
  | idle | wrfStatus | frame | stall | endCycle
  deriving DecidableEq

/-- The signals of `tx_pkt2mac`. -/
structure TxPkt2Mac where
  state : TxMacState
  offset : ℕ
  pktPtr : BitVec txPktBufAdrsize
  cyc : Bool
  stb : Bool

/-- What the machine shows on the fabric. -/
structure SrcOutput where
  cyc : Bool
  stb : Bool
  we : Bool
  adr : BitVec 2
  dat : Word

namespace TxPkt2Mac

variable (s : TxPkt2Mac)

/-- The state after a reset. -/
def reset : TxPkt2Mac where
  state := .idle
  offset := 0
  pktPtr := 0
  cyc := false
  stb := false

/-- The next word is shown, and the one behind it asked for. -/
def nextWord : TxPkt2Mac := { s with state := .frame, offset := s.offset + 1, stb := true }

/-- **One clock edge** of `tx_pkt2mac`. -/
def step (empty eop stall : Bool) : TxPkt2Mac :=
  match s.state with
  | .idle =>
    if !empty then { s with state := .wrfStatus, offset := 0, cyc := true, stb := true }
    else { s with state := .idle, offset := 0, cyc := false, stb := false }
  | .wrfStatus =>
    if !stall then s.nextWord else { s with state := .wrfStatus }
  | .frame =>
    -- the word asked for ahead is taken back
    if stall then { s with state := .stall, offset := s.offset - 1, stb := false }
    else if eop then
      { s with
        state := .endCycle, offset := 0, stb := false
        pktPtr := s.pktPtr + BitVec.ofNat txPktBufAdrsize s.offset }
    else s.nextWord
  | .stall => if !stall then s.nextWord else { s with state := .stall, stb := false }
  | .endCycle =>
    if !stall then { s with state := .idle, cyc := false, stb := false }
    else { s with state := .endCycle, stb := false }

variable {s} in
/-- Where the MAC does not stall, a word follows in front of the last one. -/
theorem step_nextWord {empty eop : Bool}
    (h : s.state = .wrfStatus ∨ s.state = .stall ∨ s.state = .frame ∧ eop = false) :
    s.step empty eop false = s.nextWord := by
  rcases h with hs | hs | ⟨hs, heop⟩
  · simp [step, hs]
  · simp [step, hs]
  · simp [step, hs, heop]

variable {s} in
/-- A packet is done where its last word is shown and the MAC does not
stall. -/
theorem endCycle_iff {empty eop stall : Bool} :
    s.state = .frame ∧ (s.step empty eop stall).state = .endCycle ↔
      s.state = .frame ∧ stall = false ∧ eop = true := by
  refine and_congr_right fun hs => ?_
  simp only [step, hs]
  cases stall <;> cases eop <;> simp [nextWord]

variable {s} in
/-- Only at the end of a packet the pointer moves. -/
theorem pktPtr_step {empty eop stall : Bool}
    (h : ¬ (s.state = .frame ∧ stall = false ∧ eop = true)) :
    (s.step empty eop stall).pktPtr = s.pktPtr := by
  cases hs : s.state with
  | idle => cases empty <;> simp [step, hs]
  | wrfStatus => cases stall <;> simp [step, nextWord, hs]
  | frame => cases stall <;> cases eop <;> simp [step, nextWord, hs] at h ⊢
  | stall => cases stall <;> simp [step, nextWord, hs]
  | endCycle => cases stall <;> simp [step, hs]

/-- `RdAddr` and `PktRdPtr`. -/
def rdAddr : BitVec txPktBufAdrsize := s.pktPtr + BitVec.ofNat txPktBufAdrsize s.offset

@[inherit_doc rdAddr] def pktRdPtr : BitVec txPktBufAdrsize := s.pktPtr

/-- `src_o` -/
def srcO (wrf : WrFabric) (din : Word) : SrcOutput where
  cyc := s.cyc
  stb := s.stb
  we := true
  adr := if s.state = .wrfStatus then wrf.wrfStatus else wrf.wrfData
  dat := if s.state = .wrfStatus then 0x0204 else din

end TxPkt2Mac

/-! ## The transmit buffers -/

/-- The inputs of a cycle: those of `tx_data2buf`, and the stall of the
MAC. -/
structure TxBuffersInput where
  tx : TxInput
  stall : Bool := false

/-- `TxBuffers` -/
structure TxBuffers (ram : GenericDpram txPktBufAdrsize 17) where
  tx : TxWriteSide ram
  mac : TxPkt2Mac

namespace TxBuffers

variable {ram : GenericDpram txPktBufAdrsize 17} (s : TxBuffers ram) (c : TxBuffersInput)

/-- `Empty` and `Full`. -/
def empty : Bool := PktBufFlags.empty s.mac.pktRdPtr s.tx.sm.pktWrPtr

@[inherit_doc empty]
def full : Bool := PktBufFlags.full s.mac.pktRdPtr s.tx.sm.pktWrPtr

/-- What `tx_data2buf` sees. -/
def txInput : TxInput := { c.tx with full := s.full }

/-- One clock edge. -/
def step : TxBuffers ram where
  tx := s.tx.step (s.txInput c, s.mac.rdAddr)
  mac := s.mac.step s.empty (packetEop (ram.qb s.tx.buffer)) c.stall

/-- A reset of the machines; the buffer keeps its words. -/
def reset : TxBuffers ram where
  tx := { s.tx with sm := s.tx.sm.reset, pseudoHeader := 0 }
  mac := TxPkt2Mac.reset

end TxBuffers

end Ipmux

end WrCalibration
