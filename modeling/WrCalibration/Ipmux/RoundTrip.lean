import WrCalibration.Ipmux.TxImage

/-!
# From the transmit buffer to the streams of the other side

What the transmit side leaves in its buffer, padded to the least frame of
the line, is a frame the receive side finds no error in: the two agree on
the place of every field, on the length, and on the checksum.
-/

namespace WrCalibration

namespace Ipmux

open Clocked GenericDpram TxData2Buf

/-! ## The fields -/

section Frame

variable {regs : EthRegs} {stream : Fin numUdpPrts} {frag : TxInput} {ws pad : List Word}

/-- **What the transmit side sends, the receive side accepts.** -/
theorem udpFrame_txFrame (hws : ws ≠ []) (hlen : payload + ws.length ≤ maxReservPktBuf) :
    UdpFrame (txFrame regs stream frag ws ++ pad) ws.length (regs.udpSrvPrt stream) := by
  have hip : ∀ k < ipHdrCnt, (txFrame regs stream frag ws ++ pad).getD (ipHdr + k) 0 =
      (ipHeader regs frag ws.length).toList.getD k 0 := by
    intro k hk
    have hk' : k < 10 := hk
    rw [← part_ip regs stream frag ws pad, getD_part]
    change 7 + k < 17
    omega
  constructor
  · exact List.length_pos_iff.2 hws
  · rw [List.length_append, length_txFrame]
    omega
  · rw [← getD_part (b := ipHdr) _ (by decide), part_mac]
    rfl
  · rw [part_ip]
    exact lower_rxFold_ipHeader regs frag ws.length
  · have hword : (ipHeader regs frag ws.length).toList.getD ipIdxVerLenTos 0 = 0x4500 := rfl
    rw [hip _ (by decide), hword]
    rfl
  · have hword : (ipHeader regs frag ws.length).toList.getD ipIdxTtlProt 0 = 0x8011 := rfl
    rw [hip _ (by decide), hword]
    rfl
  · rw [hip _ (by decide), ← toNat_ipLength hlen]
    rfl
  · rw [← getD_part (b := payload) _ (by decide), part_udp]
    rfl

end Frame

/-- The shortest frame on the line. -/
def minFrame : ℕ := 30

/-- A frame on the line, zeros behind it where it is too short. -/
def padded (frame : List Word) : List Word := frame ++ List.replicate (minFrame - frame.length) 0

/-! ## The round trip -/

/-- **The round trip.** The frame of a packet of any stream, as it was left
in the transmit buffer and padded on the line, passes from the receive
buffer to the one stream of its port, word for word, and to no other. -/
theorem roundTrip {txRam : GenericDpram txPktBufAdrsize 17}
    {rxRam : GenericDpram rxPktBufAdrsize 17} {regs : EthRegs} {stream : Fin numUdpPrts}
    {s : TxWriteSide txRam} (packet : PacketCycles regs stream) (hstable : StableBefore regs s)
    (hs : s.sm.state = .idle) (hlen : packet.words.length ≤ 4486)
    {r : RxReadSide rxRam} {c : RxInput} {cs : List RxInput} {j : Fin numUdpPrts}
    {frame : List Word}
    (hframe : frame = padded (leftFrame s (run TxWriteSide.step s packet.cycles)))
    (hreach : Reachable r) (hr : r.sm.state = .idle)
    (hheld : rxRam.Holds r.buffer r.sm.pktPtr 0 (endMarked frame))
    (hempty : c.empty = false)
    (hpasses : ∀ c' ∈ c :: cs, Passes frame (regs.udpSrvPrt stream) r.sm.pktPtr j c')
    (hcycles : (c :: cs).length = frame.length + 4) :
    (∀ x ∈ trace RxReadSide.step r (c :: cs), x.1.sm.errorVector = 0) ∧
    (∃ out, (trace RxReadSide.step r (c :: cs)).filterMap (RxReadSide.written j.castSucc) = out ∧
      out.map Dbus.d = packet.words ∧
      out.map Dbus.eod = List.replicate (packet.words.length - 1) false ++ [true]) ∧
    (∀ k ≠ j.castSucc,
      (trace RxReadSide.step r (c :: cs)).filterMap (RxReadSide.written k) = []) ∧
    (run RxReadSide.step r (c :: cs)).sm.state = .idle ∧
    (run RxReadSide.step r (c :: cs)).sm.errorVector = 0 ∧
    (run RxReadSide.step r (c :: cs)).sm.pktPtr =
      r.sm.pktPtr + BitVec.ofNat rxPktBufAdrsize frame.length := by
  have hmax : payload + packet.words.length ≤ maxReservPktBuf := Nat.add_le_add_left hlen 21
  obtain ⟨frag, hsent⟩ := packet.run_cycles (hstable.ready hs) hmax
  have hleft := hsent.leftFrame_eq hmax
  -- the line pads behind the payload, where no checksum reaches
  have hudp : UdpFrame frame packet.words.length (regs.udpSrvPrt stream) := by
    rw [hframe, hleft]
    exact udpFrame_txFrame packet.words_ne_nil hmax
  have hpayload : part payload (payload + packet.words.length) frame = packet.words := by
    rw [hframe, hleft]
    exact part_payload regs stream frag packet.words _
  have hwaiting : Waiting r.sm.pktPtr r.sm := hreach.waiting hr
  obtain ⟨herrors, hwritten, hend⟩ := run_frame hwaiting hheld hudp hempty hpasses hcycles
  rw [hpayload] at hwritten
  refine ⟨herrors, ⟨_, rfl, ?_⟩, ?_, hend.state, hend.errorVector, hend.pktPtr⟩
  · rw [hwritten, if_pos rfl]
    exact packetDbus_endMarked packet.words_ne_nil
  · intro k hk
    rw [hwritten, if_neg hk]

/-! A payload of two words with a bubble between them, from stream 2 to
stream 1. -/

/-- The registers of the receive side. -/
def sampleRxRegs : EthRegs :=
  { sampleRegs with udpModPrt := fun k => 0x4001 + BitVec.ofNat 16 k }

def sampleFrame : List Word :=
  padded (leftFrame sampleTx (run TxWriteSide.step sampleTx samplePacket.cycles))

/-- The receive side after a reset, the frame in its buffer. -/
def sampleRx : RxReadSide (array rxPktBufAdrsize 17) :=
  RxReadSide.reset {
    sm := {
      state := .idle, offset := 0, pktPtr := 0, errorVector := 0, wrReqIntern := false
      sodIntern := false, eodOut := false, streamIntern := defaultStream, fragID := 0
      moreFrags := false, fragOff := 0, udpCheckSumErr := false
      packetHeaderRegFile := Vector.replicate _ 0, ipLength := 0, payloadLength := 0
      ipCheckSum := 0, udpCheckSum := 0, idx := 0 }
    buffer := (fun a => (endMarked sampleFrame).getD a.toNat 0, 0) }

def sampleRxCycles : List RxInput := List.replicate 34 { ethRegs := sampleRxRegs }

theorem length_sampleFrame : sampleFrame.length = 30 := by
  decide

theorem holds_sampleRx :
    (array rxPktBufAdrsize 17).Holds sampleRx.buffer sampleRx.sm.pktPtr 0
      (endMarked sampleFrame) :=
  holds_getD (by rw [length_endMarked, length_sampleFrame]; decide) 0

theorem roundTrip_sample :
    (∀ x ∈ trace RxReadSide.step sampleRx sampleRxCycles, x.1.sm.errorVector = 0) ∧
    ∃ out, (trace RxReadSide.step sampleRx sampleRxCycles).filterMap (RxReadSide.written 1) = out ∧
      out.map Dbus.d = [0xCAFE, 0xBEEF] ∧ out.map Dbus.eod = [false, true] := by
  have hpasses : ∀ c ∈ sampleRxCycles,
      Passes sampleFrame (sampleRegs.udpSrvPrt 2) sampleRx.sm.pktPtr 1 c := by
    intro c hc
    rw [List.eq_of_mem_replicate hc]
    exact ⟨fun _ => rfl, by decide, fun hwe => by cases hwe⟩
  obtain ⟨herrors, hwritten, -⟩ := roundTrip samplePacket ⟨_, _, _, rfl, rfl, rfl⟩ rfl (by decide)
    rfl ⟨_, [], rfl⟩ rfl holds_sampleRx rfl hpasses
    (by rw [length_sampleFrame]; rfl : sampleRxCycles.length = sampleFrame.length + 4)
  exact ⟨herrors, hwritten⟩

end Ipmux

end WrCalibration
