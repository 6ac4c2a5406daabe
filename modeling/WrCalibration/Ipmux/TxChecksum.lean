import WrCalibration.Ipmux.TxImage

/-!
# A UDP checksum of zero

In the header of UDP a checksum of `0x0000` says that none was calculated,
which is how `tx_data2buf` initialises the field. The machine calculates
one for every packet, and sends it as it comes out. It comes out as zero
exactly if the words under it add up to a multiple of 65535
(`sentAsCalculated_iff`).
-/

namespace WrCalibration

namespace Ipmux

open Clocked GenericDpram TxData2Buf

variable {ram : GenericDpram txPktBufAdrsize 17} {regs : EthRegs} {stream : Fin numUdpPrts}
  {s : TxWriteSide ram}

/-- The word at the place of the UDP checksum, in the packet behind the
pointer `base`. -/
def udpChecksAt (buffer : ram.State) (base : BitVec txPktBufAdrsize) : Word :=
  packetData (ram.contents buffer (base + BitVec.ofNat txPktBufAdrsize (udpHdr + udpIdxChecks)))

/-- **A packet is sent with a checksum**: the word does not say that there is
none. -/
def SentAsCalculated (s : TxWriteSide ram) (cycles : List (TxInput × BitVec txPktBufAdrsize)) :
    Prop :=
  udpChecksAt (run TxWriteSide.step s cycles).buffer s.sm.pktPtr ≠ 0

/-- The word that is sent. -/
theorem udpChecksAt_run (packet : PacketCycles regs stream) (hstable : StableBefore regs s)
    (hs : s.sm.state = .idle) (hlen : packet.words.length ≤ 4486) :
    udpChecksAt (run TxWriteSide.step s packet.cycles).buffer s.sm.pktPtr =
      ~~~lower (txFold (sum32 (udpSumWords regs stream packet.words))) := by
  have hmax : payload + packet.words.length ≤ maxReservPktBuf := Nat.add_le_add_left hlen 21
  obtain ⟨frag, hsent⟩ := packet.run_cycles (hstable.ready hs) hmax
  have hlt : udpHdr + udpIdxChecks <
      (endMarked (txFrame regs stream frag packet.words)).length := by
    rw [length_endMarked, length_txFrame]
    exact Nat.lt_add_right _ (by decide)
  have hword := hsent.held _ hlt
  rw [Nat.zero_add] at hword
  rw [udpChecksAt, hword, getElem_endMarked, packetData_packetWord, getD_txFrame_udp (by decide),
    toList_udpHeader]
  rfl

/-- **When a packet is sent with a checksum**: the words of the pseudo header,
of the UDP header and of the payload do not add up to a multiple of 65535. -/
theorem sentAsCalculated_iff (packet : PacketCycles regs stream) (hstable : StableBefore regs s)
    (hs : s.sm.state = .idle) (hlen : packet.words.length ≤ 4486) :
    SentAsCalculated s packet.cycles ↔
      ¬ 65535 ∣ ((udpSumWords regs stream packet.words).map BitVec.toNat).sum := by
  have hmax : payload + packet.words.length ≤ maxReservPktBuf := Nat.add_le_add_left hlen 21
  obtain ⟨hsum, hpos, -⟩ := toNat_sum32_udpSumWords regs stream hmax
  rw [SentAsCalculated, udpChecksAt_run packet hstable hs hlen, ne_eq,
    not_lower_txFold_eq_zero_iff hpos, hsum]

theorem sentAsCalculated_sample : SentAsCalculated sampleTx samplePacket.cycles :=
  (sentAsCalculated_iff samplePacket ⟨_, _, _, rfl, rfl, rfl⟩ rfl (by decide)).2 (by decide)

/-- A packet of one word, which makes the sum a multiple of 65535. -/
def zeroPacket : PacketCycles sampleRegs 2 :=
  { samplePacket with
    body := []
    last := ({
      ethRegs := sampleRegs, stream := 2, txLlData := 0xEE81, txLlValid := true
      txLlEop := true }, 0)
    body_eop := by decide
    last_eop := rfl
    last_valid := rfl
    last_regs := rfl
    last_stream := rfl }

/-- **A checksum of zero is sent as none.** -/
theorem not_sentAsCalculated :
    StableBefore sampleRegs sampleTx ∧ sampleTx.sm.state = .idle ∧
      zeroPacket.words = [0xEE81] ∧ ¬ SentAsCalculated sampleTx zeroPacket.cycles := by
  have hstable : StableBefore sampleRegs sampleTx := ⟨_, _, _, rfl, rfl, rfl⟩
  refine ⟨hstable, rfl, rfl, not_not.2 ?_⟩
  rw [udpChecksAt_run zeroPacket hstable rfl (by decide)]
  decide

end Ipmux

end WrCalibration
