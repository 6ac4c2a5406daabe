import WrCalibration.Ipmux.RxFrame
import WrCalibration.Ipmux.TxFrame
import Mathlib.Algebra.BigOperators.Group.List.Basic

/-!
# The image of a packet

The frame that a packet leaves in the transmit buffer, field by field:
where the addresses, ports and lengths stand, and that both checksums
verify. `FrameImage` says it without a word of how the frame is built.
-/

namespace WrCalibration

namespace Ipmux

open Clocked GenericDpram TxData2Buf OnesComplement

/-! ## The parts of the frame -/

section Frame

variable (regs : EthRegs) (stream : Fin numUdpPrts) (frag : TxInput) (ws pad : List Word)

theorem part_mac : part macHdr ipHdr (txFrame regs stream frag ws ++ pad) =
    (initMacHeader regs).toList := by
  rw [txFrame, List.append_assoc]
  exact List.take_left' Vector.length_toList

theorem part_ip : part ipHdr udpHdr (txFrame regs stream frag ws ++ pad) =
    (ipHeader regs frag ws.length).toList := by
  rw [txFrame, List.append_assoc, List.append_assoc]
  refine part_append _ _ _ Vector.length_toList ?_
  rw [Vector.length_toList]
  rfl

theorem part_udp : part udpHdr payload (txFrame regs stream frag ws ++ pad) =
    (udpHeader regs stream ws).toList := by
  simp only [txFrame, List.append_assoc]
  rw [← List.append_assoc]
  refine part_append _ _ _ ?_ ?_
  · rw [List.length_append, Vector.length_toList, Vector.length_toList]
    rfl
  · rw [Vector.length_toList]
    rfl

theorem part_payload : part payload (payload + ws.length) (txFrame regs stream frag ws ++ pad) =
    ws := by
  simp only [txFrame, List.append_assoc]
  rw [← List.append_assoc, ← List.append_assoc]
  refine part_append _ _ _ ?_ rfl
  simp only [List.length_append, Vector.length_toList]
  rfl

/-! ## The fields -/

variable {regs stream frag ws pad} {n : ℕ}

/-- A word of a sum, replaced. -/
theorem sum32_set {ws : List Word} {k : ℕ} (w : Word) (h : k < ws.length) (hzero : ws[k] = 0) :
    sum32 (ws.set k w) = sum32 ws + wide w := by
  have hwide : wide 0 = 0 := rfl
  rw [sum32, List.map_set, List.sum_set', dif_pos (by rwa [List.length_map]), List.getElem_map,
    hzero, hwide, neg_zero, zero_add, sum32]

/-- **The IP checksum is right.** -/
theorem lower_rxFold_ipHeader (regs : EthRegs) (frag : TxInput) (n : ℕ) :
    lower (rxFold (sum32 (ipHeader regs frag n).toList)) = 0 := by
  have hlen : (ipHeaderNoChecks regs frag n).toList.length = 10 := Vector.length_toList
  obtain ⟨hsum, hle⟩ := toNat_sum32 (ipHeaderNoChecks regs frag n).toList (by omega)
  have hpos : 0x4500 ≤ ((ipHeaderNoChecks regs frag n).toList.map BitVec.toNat).sum :=
    Nat.le_add_right _ _
  rw [hlen] at hle
  rw [ipHeader, Vector.toList_set, sum32_set _ (by rw [hlen]; decide) rfl]
  exact lower_rxFold_add (by omega) (by omega)

/-- The length of an IP packet does not overflow. -/
theorem toNat_ipLength (h : payload + n ≤ maxReservPktBuf) :
    (BitVec.ofNat 16 (2 * ipHdrCnt) + udpLengthOf n).toNat = 2 * (ipHdrCnt + udpHdrCnt + n) := by
  have hn : 21 + n ≤ 4507 := h
  have hip : ipHdrCnt = 10 := rfl
  have hudp : udpHdrCnt = 4 := rfl
  rw [udpLengthOf, hip, hudp, BitVec.toNat_add, BitVec.toNat_ofNat, BitVec.toNat_ofNat]
  omega

/-- Nor does the length of a UDP packet. -/
theorem toNat_udpLength (h : payload + n ≤ maxReservPktBuf) :
    (udpLengthOf n).toNat = 2 * (udpHdrCnt + n) := by
  have hn : 21 + n ≤ 4507 := h
  have hudp : udpHdrCnt = 4 := rfl
  rw [udpLengthOf, hudp, BitVec.toNat_ofNat]
  omega

/-- A part of a part. -/
theorem part_part {lo hi a b : ℕ} (frame : List Word) (h : lo + b ≤ hi) :
    part a b (part lo hi frame) = part (lo + a) (lo + b) frame := by
  rw [part, part, part, List.take_drop, List.drop_drop, List.take_take, Nat.min_eq_left h]

/-- The same word twice, as the UDP checksum adds the length. -/
theorem zero_append_append_zero (w : Word) : (0#15 ++ w ++ 0#1 : BitVec 32) = wide w + wide w := by
  have hw := w.isLt
  have htwice : (0#15 ++ w ++ 0#1).toNat = 2 * w.toNat := by
    rw [BitVec.toNat_append, BitVec.toNat_append, BitVec.toNat_zero, Nat.zero_shiftLeft,
      Nat.zero_or, BitVec.toNat_zero, Nat.or_zero, Nat.shiftLeft_eq]
    omega
  rw [← BitVec.toNat_inj, BitVec.toNat_add, toNat_wide]
  omega

/-! ## The checksums -/

/-- The pseudo header of a packet with `n` words of payload. -/
def pseudoHeaderWords (regs : EthRegs) (n : ℕ) : List Word :=
  [wordOf 1 regs.ipMod, wordOf 0 regs.ipMod, wordOf 1 regs.ipSrv, wordOf 0 regs.ipSrv, 0x0011,
    udpLengthOf n]

/-- The protocol number is in it. -/
theorem le_sum_pseudoHeaderWords (regs : EthRegs) (n : ℕ) :
    0x11 ≤ ((pseudoHeaderWords regs n).map BitVec.toNat).sum := by
  have hprot : (0x0011 : Word).toNat = 0x11 := rfl
  simp only [pseudoHeaderWords, List.map_cons, List.sum_cons, hprot]
  omega

/-- What the receive side accepts verifies. -/
theorem oneSum_of_lower_rxFold {ws : List Word} (hlen : ws.length ≤ 32768)
    (hpos : 0 < (ws.map BitVec.toNat).sum) (h : lower (rxFold (sum32 ws)) = 0) :
    oneSum 65536 (ws.map BitVec.toNat) = 65535 := by
  obtain ⟨hsum, hle⟩ := toNat_sum32 ws (by omega)
  have hwords : ∀ w ∈ ws.map BitVec.toNat, w < 65536 := by
    intro w hw
    obtain ⟨v, -, rfl⟩ := List.mem_map.1 hw
    exact v.isLt
  refine (oneSum_eq_iff (by decide) hwords).2 ⟨hpos, ?_⟩
  rw [← hsum] at hpos hle ⊢
  exact (lower_rxFold_eq_zero_iff_dvd hpos (by omega)).1 h

/-- The words under the UDP checksum of a payload: the pseudo header, the UDP
header without the checksum, and the payload. -/
def udpSumWords (regs : EthRegs) (stream : Fin numUdpPrts) (ws : List Word) : List Word :=
  pseudoHeaderWords regs ws.length ++
    ([regs.udpModPrt stream, regs.udpSrvPrt stream, udpLengthOf ws.length] ++ ws)

/-- The sum of these words does not overflow, and is not zero. -/
theorem toNat_sum32_udpSumWords (regs : EthRegs) (stream : Fin numUdpPrts) {ws : List Word}
    (hlen : payload + ws.length ≤ maxReservPktBuf) :
    (sum32 (udpSumWords regs stream ws)).toNat =
        ((udpSumWords regs stream ws).map BitVec.toNat).sum ∧
      0 < (sum32 (udpSumWords regs stream ws)).toNat ∧
      (sum32 (udpSumWords regs stream ws)).toNat + 65536 < 2 ^ 32 := by
  have hlen' : 21 + ws.length ≤ 4507 := hlen
  have hcount : (udpSumWords regs stream ws).length = 9 + ws.length := by
    simp [udpSumWords, pseudoHeaderWords]
    omega
  obtain ⟨hsum, hle⟩ := toNat_sum32 (udpSumWords regs stream ws) (by omega)
  have hpseudo := le_sum_pseudoHeaderWords regs ws.length
  have hpos : 0x11 ≤ ((udpSumWords regs stream ws).map BitVec.toNat).sum := by
    rw [udpSumWords, List.map_append, List.sum_append]
    omega
  exact ⟨hsum, by omega, by omega⟩

/-- **The UDP header of a payload**, word by word. -/
theorem toList_udpHeader (regs : EthRegs) (stream : Fin numUdpPrts) (ws : List Word) :
    (udpHeader regs stream ws).toList = [regs.udpModPrt stream, regs.udpSrvPrt stream,
      udpLengthOf ws.length, ~~~lower (txFold (sum32 (udpSumWords regs stream ws)))] := by
  have hheader : (udpHeader regs stream ws).toList = [regs.udpModPrt stream,
      regs.udpSrvPrt stream, udpLengthOf ws.length, ~~~lower (txFold
        (pseudoHeader regs + sum32 ws + (0#15 ++ udpLengthOf ws.length ++ 0#1) +
          wide (regs.udpModPrt stream) + wide (regs.udpSrvPrt stream)))] := rfl
  have hsum : pseudoHeader regs + sum32 ws + (0#15 ++ udpLengthOf ws.length ++ 0#1) +
      wide (regs.udpModPrt stream) + wide (regs.udpSrvPrt stream) =
      sum32 (udpSumWords regs stream ws) := by
    rw [zero_append_append_zero, pseudoHeader]
    simp only [udpSumWords, pseudoHeaderWords, sum32, List.map_append, List.map_cons,
      List.map_nil, List.sum_append, List.sum_cons, List.sum_nil]
    ring
  rw [hheader, hsum]

/-- **The UDP checksum is right.** -/
theorem lower_rxFold_udp (regs : EthRegs) (stream : Fin numUdpPrts) {ws : List Word}
    (hlen : payload + ws.length ≤ maxReservPktBuf) :
    lower (rxFold (sum32 (pseudoHeaderWords regs ws.length ++
      ((udpHeader regs stream ws).toList ++ ws)))) = 0 := by
  have hsplit : sum32 (pseudoHeaderWords regs ws.length ++
      ((udpHeader regs stream ws).toList ++ ws)) = sum32 (udpSumWords regs stream ws) +
        wide (~~~lower (txFold (sum32 (udpSumWords regs stream ws)))) := by
    rw [toList_udpHeader]
    generalize ~~~lower (txFold (sum32 (udpSumWords regs stream ws))) = checks
    simp only [udpSumWords, sum32, List.map_append, List.map_cons, List.map_nil, List.sum_append,
      List.sum_cons, List.sum_nil]
    ring
  obtain ⟨-, hpos, hlt⟩ := toNat_sum32_udpSumWords regs stream hlen
  rw [hsplit]
  exact lower_rxFold_add hpos hlt

/-- It verifies. -/
theorem oneSum_udp (regs : EthRegs) (stream : Fin numUdpPrts) {ws : List Word}
    (hlen : payload + ws.length ≤ maxReservPktBuf) :
    oneSum 65536 ((pseudoHeaderWords regs ws.length ++
      ((udpHeader regs stream ws).toList ++ ws)).map BitVec.toNat) = 65535 := by
  have hlen' : 21 + ws.length ≤ 4507 := hlen
  refine oneSum_of_lower_rxFold ?_ ?_ (lower_rxFold_udp regs stream hlen)
  · rw [List.length_append, List.length_append, Vector.length_toList]
    change 6 + (4 + ws.length) ≤ 32768
    omega
  · have hpseudo := le_sum_pseudoHeaderWords regs ws.length
    rw [List.map_append, List.sum_append]
    omega

end Frame

/-- A state of the transmit side before which the registers were stable. -/
def StableBefore {ram : GenericDpram txPktBufAdrsize 17} (regs : EthRegs) (s : TxWriteSide ram) :
    Prop :=
  ∃ (s₀ : TxWriteSide ram) (c₁ c₂ : TxInput × BitVec txPktBufAdrsize),
    c₁.1.ethRegs = regs ∧ c₂.1.ethRegs = regs ∧ s = (s₀.step c₁).step c₂

theorem StableBefore.ready {ram : GenericDpram txPktBufAdrsize 17} {regs : EthRegs}
    {s : TxWriteSide ram} (h : StableBefore regs s) (hs : s.sm.state = .idle) :
    Ready regs s.sm := by
  obtain ⟨s₀, c₁, c₂, hc₁, hc₂, rfl⟩ := h
  rw [← hc₂]
  exact ready_of_stable (hc₁.trans hc₂.symm) hs

/-! ## The image -/

/-- **The image of a packet**: a frame with the addresses, ports and lengths
of a payload, whose checksums verify. -/
structure FrameImage (regs : EthRegs) (stream : Fin numUdpPrts) (ws frame : List Word) :
    Prop where
  length : frame.length = payload + ws.length
  mac : part macHdr ipHdr frame =
    [wordOf 2 regs.macSrv, wordOf 1 regs.macSrv, wordOf 0 regs.macSrv,
      wordOf 2 regs.macMod, wordOf 1 regs.macMod, wordOf 0 regs.macMod, 0x0800]
  verLenTos : frame.getD (ipHdr + ipIdxVerLenTos) 0 = 0x4500
  ipLength : (frame.getD (ipHdr + ipIdxLen) 0).toNat = 2 * (14 + ws.length)
  ttlProt : frame.getD (ipHdr + ipIdxTtlProt) 0 = 0x8011
  ipSrc : part (ipHdr + ipIdxIpSrc) (ipHdr + ipIdxIpDst) frame =
    [wordOf 1 regs.ipMod, wordOf 0 regs.ipMod]
  ipDst : part (ipHdr + ipIdxIpDst) udpHdr frame = [wordOf 1 regs.ipSrv, wordOf 0 regs.ipSrv]
  ipChecks : oneSum 65536 ((part ipHdr udpHdr frame).map BitVec.toNat) = 65535
  srcPrt : frame.getD (udpHdr + udpIdxSrcprt) 0 = regs.udpModPrt stream
  dstPrt : frame.getD (udpHdr + udpIdxDstprt) 0 = regs.udpSrvPrt stream
  udpLength : (frame.getD (udpHdr + udpIdxLen) 0).toNat = 2 * (4 + ws.length)
  udpChecks : oneSum 65536 ((pseudoHeaderWords regs ws.length ++
    part udpHdr (payload + ws.length) frame).map BitVec.toNat) = 65535
  payload : part payload (payload + ws.length) frame = ws

/-- A field of the UDP header is read off its register file. -/
theorem getD_txFrame_udp {regs : EthRegs} {stream : Fin numUdpPrts} {frag : TxInput}
    {ws : List Word} {k : ℕ} (hk : k < udpHdrCnt) :
    (txFrame regs stream frag ws).getD (udpHdr + k) 0 =
      (udpHeader regs stream ws).toList.getD k 0 := by
  have hudp := part_udp regs stream frag ws []
  rw [List.append_nil] at hudp
  rw [← hudp, getD_part]
  change 17 + k < 21
  have hk' : k < 4 := hk
  omega

/-- A field of the IP header likewise. -/
theorem getD_txFrame_ip {regs : EthRegs} {stream : Fin numUdpPrts} {frag : TxInput}
    {ws : List Word} {k : ℕ} (hk : k < ipHdrCnt) :
    (txFrame regs stream frag ws).getD (ipHdr + k) 0 =
      (ipHeader regs frag ws.length).toList.getD k 0 := by
  have hip := part_ip regs stream frag ws []
  rw [List.append_nil] at hip
  rw [← hip, getD_part]
  change 7 + k < 17
  have hk' : k < 10 := hk
  omega

/-- Behind the IP header come the UDP header and the payload. -/
theorem part_body (regs : EthRegs) (stream : Fin numUdpPrts) (frag : TxInput) (ws : List Word) :
    part udpHdr (payload + ws.length) (txFrame regs stream frag ws) =
      (udpHeader regs stream ws).toList ++ ws := by
  have hsplit : txFrame regs stream frag ws =
      ((initMacHeader regs).toList ++ (ipHeader regs frag ws.length).toList) ++
        (((udpHeader regs stream ws).toList ++ ws) ++ []) := by
    rw [txFrame, List.append_nil, List.append_assoc]
  rw [hsplit]
  refine part_append _ _ _ ?_ ?_
  · rw [List.length_append, Vector.length_toList, Vector.length_toList]
    rfl
  · rw [List.length_append, Vector.length_toList, ← Nat.add_assoc]
    rfl

/-- **The frame of a payload is its image.** -/
theorem frameImage_txFrame {regs : EthRegs} {stream : Fin numUdpPrts} {frag : TxInput}
    {ws : List Word} (hlen : payload + ws.length ≤ maxReservPktBuf) :
    FrameImage regs stream ws (txFrame regs stream frag ws) := by
  have hmac := part_mac regs stream frag ws []
  have hip := part_ip regs stream frag ws []
  have hpayload := part_payload regs stream frag ws []
  rw [List.append_nil] at hmac hip hpayload
  have hsrc : part (ipHdr + ipIdxIpSrc) (ipHdr + ipIdxIpDst) (txFrame regs stream frag ws) =
      part ipIdxIpSrc ipIdxIpDst (ipHeader regs frag ws.length).toList := by
    rw [← hip, part_part _ (by decide)]
  have hdst : part (ipHdr + ipIdxIpDst) (ipHdr + ipHdrCnt) (txFrame regs stream frag ws) =
      part ipIdxIpDst ipHdrCnt (ipHeader regs frag ws.length).toList := by
    rw [← hip, part_part _ (by decide)]
  constructor
  · exact length_txFrame regs stream frag ws
  · exact hmac
  · exact getD_txFrame_ip (by decide)
  · rw [getD_txFrame_ip (by decide)]
    exact toNat_ipLength hlen
  · exact getD_txFrame_ip (by decide)
  · exact hsrc
  · exact hdst
  · rw [hip]
    exact oneSum_of_lower_rxFold (by rw [Vector.length_toList]; decide)
      (Nat.lt_of_lt_of_le (by decide) (Nat.le_add_right 0x4500 _)) (lower_rxFold_ipHeader _ _ _)
  · exact getD_txFrame_udp (by decide)
  · exact getD_txFrame_udp (by decide)
  · rw [getD_txFrame_udp (by decide)]
    exact toNat_udpLength hlen
  · rw [part_body]
    -- the UDP checksum runs on into the payload, over the end of its header
    exact oneSum_udp regs stream hlen
  · exact hpayload

/-- **What a packet leaves in the buffer**: when the machine is back in
`Idle`, for the first time, the image of the packet stands at the old
packet pointer, the end-of-packet bit on its last word only, and the pointer
has moved behind it. -/
theorem transmitted {ram : GenericDpram txPktBufAdrsize 17} {regs : EthRegs}
    {stream : Fin numUdpPrts} {s : TxWriteSide ram} (packet : PacketCycles regs stream)
    (hstable : StableBefore regs s) (hs : s.sm.state = .idle)
    (hlen : packet.words.length ≤ 4486) :
    (∀ c ∈ (trace TxWriteSide.step s packet.cycles).tail, c.1.sm.state ≠ .idle) ∧
    (run TxWriteSide.step s packet.cycles).sm.state = .idle ∧
    (run TxWriteSide.step s packet.cycles).sm.pktPtr =
      s.sm.pktPtr + BitVec.ofNat txPktBufAdrsize (21 + packet.words.length) ∧
    ∃ frame, FrameImage regs stream packet.words frame ∧
      ram.Holds (run TxWriteSide.step s packet.cycles).buffer s.sm.pktPtr 0 (endMarked frame) := by
  have hmax : payload + packet.words.length ≤ maxReservPktBuf := Nat.add_le_add_left hlen 21
  have hready := hstable.ready hs
  obtain ⟨frag, hsent⟩ := packet.run_cycles hready hmax
  exact ⟨packet.busy hready hmax, hsent.state, hsent.pktPtr, _, frameImage_txFrame hmax, hsent.held⟩

/-- The registers of a transmit side. -/
def sampleRegs : EthRegs where
  macMod := 0x0800300C0A01
  macSrv := 0x0800300C0A02
  ipMod := 0xC0A80001
  ipSrv := 0xC0A80002
  udpSrvPrt := fun k => 0x4000 + BitVec.ofNat 16 k
  udpModPrt := fun k => 0x5000 + BitVec.ofNat 16 k

def sampleCycle : TxInput × BitVec txPktBufAdrsize := ({ ethRegs := sampleRegs }, 0)

def samplePacket : PacketCycles sampleRegs 2 where
  connect := ({ ethRegs := sampleRegs, connected := true }, 0)
  body := [({ ethRegs := sampleRegs, txLlData := 0xCAFE, txLlValid := true }, 0), sampleCycle]
  last := ({
    ethRegs := sampleRegs, stream := 2, txLlData := 0xBEEF, txLlValid := true, txLlEop := true }, 0)
  header := List.replicate headerCycles sampleCycle
  connect_full := rfl
  connect_request := rfl
  connect_connected := rfl
  connect_valid := rfl
  body_eop := by decide
  last_eop := rfl
  last_valid := rfl
  last_regs := rfl
  last_stream := rfl
  length_header := List.length_replicate

/-- The transmit side after a reset and two idle cycles. -/
def sampleTx : TxWriteSide (array txPktBufAdrsize 17) :=
  let s₀ : TxWriteSide (array txPktBufAdrsize 17) := {
    sm := TxData2Buf.reset {
      state := .idle, offset := 0, pktPtr := 0, pktEnd := 0, rdReq := false
      connectReqIntern := false, selSm := false, wrEn := false, cpuAccGnt := false, dout := 0
      eopOut := false, macHeaderRegFile := Vector.replicate _ 0
      ipHeaderRegFile := Vector.replicate _ 0, ipLength := 0
      udpHeaderRegFile := Vector.replicate _ 0, udpLength := 0, checkSum := 0, idx := 0 }
    pseudoHeader := 0
    buffer := (fun _ => 0, 0) }
  (s₀.step sampleCycle).step sampleCycle

/-- A packet of two words with a bubble between them. -/
theorem transmitted_sample :
    (run TxWriteSide.step sampleTx samplePacket.cycles).sm.pktPtr = 23 ∧
      ∃ frame, FrameImage sampleRegs 2 [0xCAFE, 0xBEEF] frame ∧
        (array txPktBufAdrsize 17).Holds (run TxWriteSide.step sampleTx samplePacket.cycles).buffer
          0 0 (endMarked frame) := by
  obtain ⟨-, -, hptr, hframe⟩ :=
    transmitted samplePacket (s := sampleTx) ⟨_, _, _, rfl, rfl, rfl⟩ rfl (by decide)
  exact ⟨hptr, hframe⟩

end Ipmux

end WrCalibration
