import WrCalibration.Ipmux.RoundTrip
import WrCalibration.Ipmux.RxHalf
import WrCalibration.Ipmux.TxService

/-!
# From one `ipmux` to another

The frames that a transmit half hands to its MAC, padded on the line, come
in on the fabric of a receive half. The two agree on where a payload stands
in a frame and on where it ends, so a packet of a stream is delivered as it
is (`Sendable.delivered`), and what a reader gets of the stream that has its
port are the packets of that stream, in their order (`crosses`). With readers
that take each word at once all of them arrive (`arrives`).
-/

namespace WrCalibration

namespace Ipmux

open Clocked GenericDpram Segments

/-! ## A packet on the line -/

/-- The frame of a packet, on the line. -/
def lineFrame (regs : EthRegs) (p : Fin numUdpPrts × List Dbus) : List Word :=
  padded (TxHalf.frameOf regs p)

/-- **A packet that can be sent**: the end of data on its last word only, and
no more words than a frame has room for. -/
structure Sendable (p : List Dbus) : Prop where
  isSegment : IsSegment Dbus.eod p
  size : payload + p.length ≤ maxReservPktBuf

/-- The words of a packet, back on a bus. -/
theorem packetDbus_of_isSegment {p : List Dbus} (h : IsSegment Dbus.eod p) :
    (endMarked (p.map Dbus.d)).map packetDbus = p := by
  induction h with
  | @last a ha =>
    rw [List.map_singleton, endMarked, List.map_singleton, packetDbus, packetData_packetWord,
      packetEop_packetWord, ← ha]
  | @cons a p ha hp ih =>
    obtain ⟨b, q, rfl⟩ := List.exists_cons_of_length_pos hp.length_pos
    rw [List.map_cons, List.map_cons, endMarked, ← List.map_cons, List.map_cons, ih, packetDbus,
      packetData_packetWord, packetEop_packetWord, ← ha]

section Sendable

variable {txRegs rxRegs : EthRegs} {i j k : Fin numUdpPrts} {p : List Dbus}

theorem Sendable.udpFrame (h : Sendable p) :
    UdpFrame (lineFrame txRegs (k, p)) p.length (txRegs.udpSrvPrt k) := by
  have hne : p.map Dbus.d ≠ [] := by
    rw [Ne, List.map_eq_nil_iff]
    exact List.ne_nil_of_length_pos h.isSegment.length_pos
  have hframe : UdpFrame (lineFrame txRegs (k, p)) (p.map Dbus.d).length (txRegs.udpSrvPrt k) :=
    udpFrame_txFrame hne (by rw [List.length_map]; exact h.size)
  rwa [List.length_map] at hframe

theorem Sendable.claimedPayload (h : Sendable p) :
    Ipmux.claimedPayload (lineFrame txRegs (k, p)) = p.length :=
  h.udpFrame.claimedPayload

theorem Sendable.length_lineFrame (h : Sendable p) :
    payload + p.length ≤ (lineFrame txRegs (k, p)).length ∧
      payload < (lineFrame txRegs (k, p)).length ∧
      (lineFrame txRegs (k, p)).length ≤ maxReservPktBuf := by
  have hsize := h.size
  have hpos := h.isSegment.length_pos
  have hmin : minFrame ≤ maxReservPktBuf := by decide
  have hframe : (TxHalf.frameOf txRegs (k, p)).length = payload + p.length := by
    rw [TxHalf.frameOf, wholeFrame, length_txFrame, List.length_map]
  rw [lineFrame, padded, List.length_append, List.length_replicate, hframe]
  omega

theorem Sendable.legible (h : Sendable p) : Legible rxRegs (lineFrame txRegs (k, p)) where
  long := h.length_lineFrame.2.1
  short := h.length_lineFrame.2.2
  claimed _ _ := by
    rw [h.claimedPayload]
    exact h.length_lineFrame.1

/-- What stands behind the headers is the packet. -/
theorem Sendable.payloadOut (h : Sendable p) :
    Ipmux.payloadOut (lineFrame txRegs (k, p)) p.length = p := by
  have hpart : part payload (payload + (p.map Dbus.d).length) (lineFrame txRegs (k, p)) =
      p.map Dbus.d := part_payload txRegs k _ _ _
  rw [List.length_map] at hpart
  rw [Ipmux.payloadOut, hpart, packetDbus_of_isSegment h.isSegment]

theorem Sendable.modPort_eq_some (h : Sendable p)
    (hj : modPort rxRegs (lineFrame txRegs (k, p)) = some j) :
    rxRegs.udpModPrt j = txRegs.udpSrvPrt k := by
  rw [(Ipmux.modPort_eq_some hj).2, h.udpFrame.dstPort]

theorem Sendable.exists_modPort (h : Sendable p)
    (hport : rxRegs.udpModPrt j = txRegs.udpSrvPrt k) :
    ∃ j', modPort rxRegs (lineFrame txRegs (k, p)) = some j' := by
  rw [← Option.isSome_iff_exists, modPort, if_pos h.udpFrame.headerOk, List.find?_isSome]
  exact ⟨j, List.mem_finRange j, decide_eq_true (by rw [hport, h.udpFrame.dstPort])⟩

/-- **A stream and the one that has its port**: no other stream sends to it. -/
def Joined (txRegs rxRegs : EthRegs) (i j : Fin numUdpPrts) : Prop :=
  ∀ k, txRegs.udpSrvPrt k = rxRegs.udpModPrt j ↔ k = i

/-- **What is delivered of a packet**: the packet, to the stream that has its
port. -/
theorem Sendable.delivered (h : Sendable p) (hports : Function.Injective rxRegs.udpModPrt)
    (hjoined : Joined txRegs rxRegs i j) :
    Ipmux.delivered rxRegs j.castSucc (lineFrame txRegs (k, p)) = if k = i then p else [] := by
  by_cases hk : k = i
  · have hport := ((hjoined k).2 hk).symm
    obtain ⟨j', hj'⟩ := h.exists_modPort hport
    obtain rfl : j' = j := hports ((h.modPort_eq_some hj').trans hport.symm)
    rw [delivered_of_some hj', if_pos rfl, if_pos hk, h.claimedPayload, h.payloadOut]
  · rw [if_neg hk]
    cases hport : modPort rxRegs (lineFrame txRegs (k, p)) with
    | some j' =>
      rw [delivered_of_some hport]
      refine if_neg fun heq => hk ((hjoined k).1 ?_)
      rw [Fin.castSucc_injective _ heq, h.modPort_eq_some hport]
    | none =>
      rw [delivered_of_none hport]
      exact if_neg (Fin.castSucc_lt_last j).ne

/-- **What is delivered of packets.** -/
theorem deliveries_lineFrame {ps : List (Fin numUdpPrts × List Dbus)}
    (h : ∀ q ∈ ps, Sendable q.2) (hports : Function.Injective rxRegs.udpModPrt)
    (hjoined : Joined txRegs rxRegs i j) :
    deliveries rxRegs (ps.map (lineFrame txRegs)) j.castSucc = (ofStream i ps).flatten := by
  induction ps with
  | nil => rfl
  | cons q ps ih =>
    obtain ⟨hq, hps⟩ := List.forall_mem_cons.1 h
    have hcons : deliveries rxRegs ((q :: ps).map (lineFrame txRegs)) j.castSucc =
        Ipmux.delivered rxRegs j.castSucc (lineFrame txRegs q) ++
          deliveries rxRegs (ps.map (lineFrame txRegs)) j.castSucc := List.flatMap_cons
    rw [hcons, ih hps, hq.delivered hports hjoined, ofStream, ofStream, List.filterMap_cons]
    split <;> simp_all

end Sendable

/-! ## From half to half -/

section Line

variable {ram : GenericDpram txPktBufAdrsize 17} {ram' : GenericDpram rxPktBufAdrsize 17}
  {wrf wrf' : WrFabric} {txRegs rxRegs : EthRegs} {i j : Fin numUdpPrts} {P : TxFifoPair}
  {s : TxHalf ram P} {c : ℕ → TxHalfInput} {m lead : ℕ}
  {sent rest : List (Fin numUdpPrts × List Dbus)} {frames : List (FabricFrame wrf')}
  {F : RxFifo} {r : RxHalf ram' F} {c' : ℕ → RxHalfInput}

/-- What is sent can be sent. -/
theorem sendable_of_carried (hdriven : TxHalf.Driven txRegs s c)
    (hcarried : TxHalf.Carried wrf txRegs s c m sent rest) : ∀ q ∈ sent, Sendable q.2 := by
  intro q hq
  have hmem : q.2 ∈ ofStream q.1 (sent ++ rest) :=
    List.mem_filterMap.2 ⟨q, List.mem_append_left _ hq, if_pos rfl⟩
  have hwritten := (hcarried.inOrder q.1).subset hmem
  exact ⟨isSegment_of_mem_segments hwritten, hdriven.size m q.1 q.2 hwritten⟩

theorem ofStream_isPrefix_written (hcarried : TxHalf.Carried wrf txRegs s c m sent rest) :
    ofStream i sent <+: s.written c m i := by
  have hinOrder := hcarried.inOrder i
  rw [TxHalf.ofStream_append] at hinOrder
  exact (List.prefix_append _ _).trans hinOrder

/-- **The line** carries the frames that were sent, and others neither before nor
between nor behind them. -/
structure OnLine (txRegs rxRegs : EthRegs) (sent : List (Fin numUdpPrts × List Dbus)) (lead : ℕ)
    (frames : List (FabricFrame wrf')) (c' : ℕ → RxHalfInput) : Prop where
  words : frameWords frames = sent.map (lineFrame txRegs)
  playing : RxHalf.Playing rxRegs lead frames c'

section OnLine

variable (hline : OnLine txRegs rxRegs sent lead frames c') (hsent : ∀ q ∈ sent, Sendable q.2)

include hline hsent

theorem OnLine.legible : ∀ frame ∈ frameWords frames, Legible rxRegs frame := by
  rw [hline.words, List.forall_mem_map]
  exact fun q hq => (hsent q hq).legible

theorem OnLine.deliveries_eq (hjoined : Joined txRegs rxRegs i j) :
    deliveries rxRegs (frameWords frames) j.castSucc = (ofStream i sent).flatten := by
  rw [hline.words, deliveries_lineFrame hsent hline.playing.ports hjoined]

end OnLine

/-! ### A line -/

/-- **Packets on a line**, each with the time its pass takes. -/
def lineFrames (wrf' : WrFabric) (txRegs : EthRegs) (ps : List (Fin numUdpPrts × List Dbus))
    (h : ∀ q ∈ ps, Sendable q.2) : List (FabricFrame wrf') :=
  ps.pmap (fun q hq => .ofWords wrf' (lineFrame txRegs q) (payload + 4)
    (Sendable.length_lineFrame hq).2.2) h

theorem onLine_lineFrames (hports : Function.Injective rxRegs.udpModPrt)
    (hsent : ∀ q ∈ sent, Sendable q.2) (rdReq : ℕ → Fin (numUdpPrts + 1) → List Bool) :
    OnLine txRegs rxRegs sent 0 (lineFrames wrf' txRegs sent hsent)
      (RxHalf.play rxRegs rdReq (lineFrames wrf' txRegs sent hsent)) where
  words := by
    rw [frameWords, lineFrames, List.map_pmap]
    simp only [FabricFrame.words_ofWords, List.pmap_eq_map]
  playing := RxHalf.playing_play hports rdReq _

theorem passLength_le_lineFrames (hsent : ∀ q ∈ sent, Sendable q.2) :
    ∀ f ∈ lineFrames wrf' txRegs sent hsent, passLength rxRegs f.words ≤ f.cycles.length := by
  intro f hf
  obtain ⟨q, hq, rfl⟩ := List.mem_pmap.1 hf
  rw [FabricFrame.words_ofWords]
  refine passLength_le.trans ?_
  simp only [FabricFrame.cycles, FabricFrame.burst, FabricFrame.ofWords, List.length_append,
    List.length_map, List.length_replicate, List.length_cons, List.length_nil]
  omega

/-- **From a stream to the one that has its port.** What the MAC of a transmit
half has got by some time, carried to a receive half: where there no word is
lost in the packet buffer, and a stream with padded frames has room, what the
reader of a stream has got at any time is the beginning of what was written to
the stream that sends to its port. If the readers come again and again, it gets
in the end all that was sent of that stream. -/
theorem crosses (hslack : rxFifoThreshold + F.slack < rxFifoSize)
    (hdriven : TxHalf.Driven txRegs s c)
    (hcarried : TxHalf.Carried wrf txRegs s c m sent rest)
    (hline : OnLine txRegs rxRegs sent lead frames c') (hjoined : Joined txRegs rxRegs i j)
    (hkept : RxHalf.Kept wrf' r c' (fabricTime lead frames))
    (hroom : ∀ m', ∀ frame ∈ frameWords frames,
      RoomForPadding rxRegs frame (r.after wrf' c' m').full) :
    (∀ m', r.read wrf' c' m' j.castSucc <+: (s.written c m i).flatten) ∧
    ((∀ k N, ∃ m', N ≤ m' ∧ true ∈ (c' m').rdReq k) →
      ∃ M, ∀ m', M ≤ m' → r.read wrf' c' m' j.castSucc = (ofStream i sent).flatten) := by
  have hsent := sendable_of_carried hdriven hcarried
  have hlegible := hline.legible hsent
  have hdeliveries := hline.deliveries_eq hsent hjoined
  constructor
  · intro m'
    have hread := RxHalf.read_isPrefix hline.playing hlegible hslack hkept hroom m' j.castSucc
    rw [hdeliveries] at hread
    exact hread.trans (ofStream_isPrefix_written hcarried).flatten
  · intro hreads
    obtain ⟨M, hM⟩ := RxHalf.exists_read_eq hline.playing hlegible hslack hkept hroom hreads
    exact ⟨M, fun m' hm' => (hM m' hm' j.castSucc).trans hdeliveries⟩

/-- **All of it arrives.** Of a driven transmit half whose MAC is free again and
again, each packet that was completely written to a stream by some time is sent
by a later one; and a receive half to which the frames sent by then are carried,
no faster than its passes take, with readers that ask for a word in every cycle, hands
all of these packets to the reader of the stream that has their port, some
cycles after the last frame. -/
theorem arrives (ram' : GenericDpram rxPktBufAdrsize 17) (F : RxFifo) (wrf wrf' : WrFabric)
    (hslack : rxFifoThreshold + F.slack < rxFifoSize)
    (hdelay : 3 * F.delay + 1 < rxFifoThreshold)
    (hdriven : TxHalf.Driven txRegs s c) (hfree : FreeMac fun m => (c m).stall)
    (hjoined : Joined txRegs rxRegs i j) (m : ℕ) :
    ∃ m₁ sent rest, m ≤ m₁ ∧ TxHalf.Carried wrf txRegs s c m₁ sent rest ∧
      ∀ (lead : ℕ) (frames : List (FabricFrame wrf')) (r : RxHalf ram' F) (c' : ℕ → RxHalfInput),
        OnLine txRegs rxRegs sent lead frames c' → RxHalf.Asking c' →
        (∀ f ∈ frames, passLength rxRegs f.words ≤ f.cycles.length) →
        ∀ m', fabricTime lead frames + backlog + F.delay < m' →
          (s.written c m i).flatten <+: r.read wrf' c' m' j.castSucc ∧
            r.read wrf' c' m' j.castSucc <+: (s.written c m₁ i).flatten := by
  obtain ⟨m₁, hm₁, hcommitted⟩ := TxHalf.exists_committed hdriven hfree m i
  obtain ⟨m₂, sent, rest, hm₂, -, hdone, hcarried, -⟩ := TxHalf.exists_carried hdriven hfree wrf m₁
  refine ⟨m₂, sent, rest, hm₁.trans hm₂, hcarried, ?_⟩
  intro lead frames r c' hline hasks hpace m' hm'
  have hsent := sendable_of_carried hdriven hcarried
  rw [RxHalf.read_eq_of_asking hline.playing (hline.legible hsent) hslack hdelay hasks hpace hm',
    hline.deliveries_eq hsent hjoined]
  exact ⟨(hcommitted.trans (hdone.filterMap _)).flatten,
    (ofStream_isPrefix_written hcarried).flatten⟩

/-! From stream 2 of one side to stream 1 of the other. -/

theorem joined_sample : Joined sampleRegs sampleRxRegs 2 1 := by
  unfold Joined
  decide

theorem injective_sampleRxRegs : Function.Injective sampleRxRegs.udpModPrt := by decide

theorem onLine_sample (hsent : ∀ q ∈ sent, Sendable q.2) :
    OnLine sampleRegs sampleRxRegs sent 0 (lineFrames sampleFabric sampleRegs sent hsent)
      (RxHalf.play sampleRxRegs (fun _ _ => [true])
        (lineFrames sampleFabric sampleRegs sent hsent)) :=
  onLine_lineFrames injective_sampleRxRegs hsent _

theorem crosses_sample : ∃ frames : List (FabricFrame sampleFabric), ∀ m,
    RxHalf.sampleRxHalf.read sampleFabric
        (RxHalf.play sampleRxRegs (fun _ _ => [true]) frames) m (Fin.castSucc 1) <+:
      (TxHalf.sampleHalf.written TxHalf.sampleWrites 100 2).flatten := by
  obtain ⟨sent, rest, -, hcarried, -⟩ := TxHalf.carried TxHalf.driven_sample sampleFabric 100
  have hsent := sendable_of_carried TxHalf.driven_sample hcarried
  have hline := onLine_sample hsent
  exact ⟨_, (crosses RxHalf.margin_sample TxHalf.driven_sample hcarried hline joined_sample
    (RxHalf.kept_of_asking hline.playing (hline.legible hsent) RxHalf.margin_sample (by decide)
      (fun _ _ => List.mem_singleton.2 rfl) (passLength_le_lineFrames hsent) _)
    fun m' => (RxHalf.steady_of_asking hline.playing (hline.legible hsent) RxHalf.margin_sample
      (by decide) (fun _ _ => List.mem_singleton.2 rfl) m').padding).1⟩

theorem arrives_sample : ∃ (frames : List (FabricFrame sampleFabric)) (m : ℕ),
    [{ d := 0xD00D, eod := true }] <+: RxHalf.sampleRxHalf.read sampleFabric
      (RxHalf.play sampleRxRegs (fun _ _ => [true]) frames) m (Fin.castSucc 1) := by
  obtain ⟨m₁, sent, rest, -, hcarried, harrives⟩ :=
    arrives (array rxPktBufAdrsize 17) RxHalf.syncedRxFifo sampleFabric sampleFabric
      RxHalf.margin_sample (by decide) TxHalf.driven_sample
      (fun m => ⟨m + 3, by omega, rfl, rfl⟩) joined_sample 3
  have hsent := sendable_of_carried TxHalf.driven_sample hcarried
  have hwritten : (TxHalf.sampleHalf.written TxHalf.sampleWrites 3 2).flatten =
      [{ d := 0xD00D, eod := true }] := by
    decide +kernel
  rw [← hwritten]
  exact ⟨_, _, (harrives _ _ _ _ (onLine_sample hsent) (fun _ _ => List.mem_singleton.2 rfl)
    (passLength_le_lineFrames hsent) _ (Nat.lt_succ_self _)).1⟩

end Line

end Ipmux

end WrCalibration
