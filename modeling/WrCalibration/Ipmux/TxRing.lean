import WrCalibration.Ipmux.TxFilling
import WrCalibration.Ipmux.TxImage
import WrCalibration.Ipmux.TxReader

/-!
# The ring of the transmit buffer

`Full` is looked at once for a packet, before its first word. That the
free space suffices for what comes then, and that the ring never becomes
quite full, where equal pointers would mean empty, is `ringSafety`: the
packets in the buffer are records one behind the other, from the pointer
of the reader to that of the writer. The write side keeps the promises that
the reader needs (`Following.supplied`), so what is proved of the reader
against any write side holds of it here.
-/

namespace WrCalibration

namespace Ipmux

open Clocked GenericDpram TxData2Buf RecordRing

variable {ram : GenericDpram txPktBufAdrsize 17}

/-! ## The ledger -/

namespace TxBuffers

variable (s : TxBuffers ram) (c : TxBuffersInput)

/-- A word of a stream is stored. -/
def takes : Bool := s.tx.takes (s.txInput c, s.mac.rdAddr)

/-- A packet is committed. -/
def commits : Bool := s.tx.commits (s.txInput c, s.mac.rdAddr)

/-- A packet is sent to its end. -/
def finishes : Bool := decide (s.mac.state = .frame ∧ (s.step c).mac.state = .endCycle)

/-- A word is written to the buffer. -/
def writes : Bool := (txWrDataSrcSel s.tx.sm (s.txInput c)).1

end TxBuffers

/-- **What came and what went**: the words of the packet that is coming,
and the packets that are committed and not sent to their end. -/
structure Ledger where
  words : ℕ := 0
  records : List (Record txPktBufAdrsize) := []

/-- The packet of a commit. -/
def Ledger.packet (l : Ledger) (s : TxBuffers ram) : Record txPktBufAdrsize where
  start := s.tx.sm.pktWrPtr
  length := payload + l.words
  pos := Nat.add_pos_left (by decide) _

/-- The ledger after a cycle. -/
def Ledger.step (l : Ledger) (s : TxBuffers ram) (c : TxBuffersInput) : Ledger where
  words := if s.commits c then 0 else if s.takes c then l.words + 1 else l.words
  records := (if s.finishes c then l.records.tail else l.records) ++
    if s.commits c then [l.packet s] else []

/-- `TxBuffers`, watched. -/
structure Watched (ram : GenericDpram txPktBufAdrsize 17) where
  buffers : TxBuffers ram
  ledger : Ledger

namespace Watched

/-- One clock edge. -/
def step (w : Watched ram) (c : TxBuffersInput) : Watched ram where
  buffers := w.buffers.step c
  ledger := w.ledger.step w.buffers c

/-- A reset, with nothing in the buffer. -/
def reset (w : Watched ram) : Watched ram where
  buffers := w.buffers.reset
  ledger := {}

/-- **Only stream packets**: the CPU asks for nothing, and no frame is
longer than the reserve. -/
structure StreamsOnly (x : Watched ram × TxBuffersInput) : Prop where
  request : x.2.tx.cpuTx.request = false
  size : x.1.buffers.takes x.2 = true → payload + (x.1.ledger.words + 1) ≤ maxReservPktBuf

instance : DecidablePred (StreamsOnly : Watched ram × TxBuffersInput → Prop) := fun x =>
  decidable_of_iff (x.2.tx.cpuTx.request = false ∧
    (x.1.buffers.takes x.2 = true → payload + (x.1.ledger.words + 1) ≤ maxReservPktBuf))
    ⟨fun h => ⟨h.1, h.2⟩, fun h => ⟨h.request, h.size⟩⟩

end Watched

/-! ## A committed packet -/

/-- What stands in the buffer between the pointers of two states. -/
theorem leftFrame_eq {s s' : TxWriteSide ram} {frame : List Word}
    (hlen : frame.length < 2 ^ txPktBufAdrsize)
    (hptr : s'.sm.pktPtr = s.sm.pktPtr + BitVec.ofNat txPktBufAdrsize frame.length)
    (hheld : ram.Holds s'.buffer s.sm.pktPtr 0 (endMarked frame)) : leftFrame s s' = frame := by
  have hcount : (s'.sm.pktPtr - s.sm.pktPtr).toNat = frame.length := by
    rw [hptr, add_sub_cancel_left, BitVec.toNat_ofNat, Nat.mod_eq_of_lt hlen]
  refine List.ext_getElem (by simp [leftFrame, hcount]) fun k _ hk => ?_
  have hword := hheld k (by rwa [length_endMarked])
  rw [getElem_endMarked, Nat.zero_add, List.getD_eq_getElem _ _ hk] at hword
  simp only [leftFrame, List.getElem_map, List.getElem_range, hword, packetData_packetWord]

namespace TxBuffers

variable (s : TxBuffers ram) (c : TxBuffersInput)

/-- The packet of a cycle that commits one: the words that the pointer moves
over. -/
def packet : Option TxPacket :=
  if h : s.commits c = true ∧ 0 < (leftFrame s.tx (s.step c).tx).length ∧
      (leftFrame s.tx (s.step c).tx).length ≤ maxReservPktBuf then
    some ⟨leftFrame s.tx (s.step c).tx, h.2.1, h.2.2⟩
  else none

/-- What the reader sees of a cycle. -/
def supply : TxReadInput where
  stall := c.stall
  we := s.writes c
  wrAddr := s.tx.sm.wrAddr
  wrData := packetWord (txWrDataSrcSel s.tx.sm (s.txInput c)).2.1
    (txWrDataSrcSel s.tx.sm (s.txInput c)).2.2
  commit := s.packet c

theorem packet_eq_some {p : TxPacket} (h : s.packet c = some p) :
    s.commits c = true ∧ p.words = leftFrame s.tx (s.step c).tx := by
  unfold packet at h
  split at h
  · rename_i hcommit
    rw [Option.some.injEq] at h
    exact ⟨hcommit.1, by rw [← h]⟩
  · cases h

end TxBuffers

/-! ## The ring -/

section Ringed

variable {w : Watched ram} {r : TxReadSide ram} {c : TxBuffersInput}

/-- **The reader with its promises** stands where that of the machine does. -/
structure Following (w : Watched ram) (r : TxReadSide ram) : Prop where
  mac : r.mac = w.buffers.mac
  buffer : r.buffer = w.buffers.tx.buffer
  pktWrPtr : r.pktWrPtr = w.buffers.tx.sm.pktPtr
  lengths : r.pending.map (fun p => p.words.length) = w.ledger.records.map Record.length

theorem Following.occupied_eq (h : Following w r) :
    occupied r.pending = total w.ledger.records := by
  have hsum : ∀ ps : List TxPacket, occupied ps = (ps.map fun p => p.words.length).sum := by
    intro ps
    induction ps with
    | nil => rfl
    | cons p ps ih => rw [occupied_cons, ih, List.map_cons, List.sum_cons]
  rw [hsum, h.lengths, total]

theorem Following.empty (h : Following w r) : r.empty = w.buffers.empty := by
  rw [TxReadSide.empty, h.mac, h.pktWrPtr]
  rfl

theorem Following.finishes (h : Following w r) :
    r.finishes (w.buffers.supply c) = w.buffers.finishes c := by
  rw [TxReadSide.finishes, TxReadSide.macNext, h.empty, h.mac, h.buffer]
  rfl

theorem Following.pending_eq_nil (h : Following w r) : r.pending = [] ↔ w.ledger.records = [] := by
  rw [← List.map_eq_nil_iff (f := fun p : TxPacket => p.words.length), h.lengths,
    List.map_eq_nil_iff]

/-- **The invariant of the ring**: the records are the packets of a reader that
stands where that of the machine does. -/
structure Ringed (w : Watched ram) : Prop where
  filling : Filling w.ledger.words w.buffers.tx
  size : payload + w.ledger.words ≤ maxReservPktBuf
  linked : Linked w.buffers.mac.pktPtr w.ledger.records w.buffers.tx.sm.pktPtr
  -- the reserve is there from the first look at `Full` to the commit
  free : ¬ Quiet w.buffers.tx → total w.ledger.records + maxReservPktBuf < 2 ^ txPktBufAdrsize
  reader : ∃ r : TxReadSide ram, Following w r ∧ r.Sound

theorem ringed_reset (w : Watched ram) : Ringed w.reset where
  filling := .idle rfl rfl rfl rfl
  size := (by decide : payload + 0 ≤ maxReservPktBuf)
  linked := rfl
  free _ := (by decide : 0 + maxReservPktBuf < 2 ^ txPktBufAdrsize)
  reader := ⟨TxReadSide.start w.buffers.tx.buffer 0 [], ⟨rfl, rfl, rfl, rfl⟩,
    TxReadSide.sound_start (fun _ hk => absurd hk (Nat.not_lt_zero _)) (by decide)⟩

theorem Ringed.room (h : Ringed w) : total w.ledger.records < 2 ^ txPktBufAdrsize := by
  obtain ⟨r, hfollow, hsound⟩ := h.reader
  rw [← hfollow.occupied_eq]
  exact hsound.laid.room

theorem Ringed.empty (h : Ringed w) : w.buffers.empty = true ↔ w.ledger.records = [] := by
  obtain ⟨r, hfollow, hsound⟩ := h.reader
  rw [← hfollow.empty, hsound.laid.empty, hfollow.pending_eq_nil]

/-- `Full` is up where the longest packet might not find room. -/
theorem Ringed.full_eq (h : Ringed w) : w.buffers.full =
    decide (2 ^ txPktBufAdrsize ≤ total w.ledger.records + maxReservPktBuf) := by
  obtain ⟨r, hfollow, hsound⟩ := h.reader
  have hring : PacketRing ram r.buffer r.mac.pktPtr r.pktWrPtr 0 _ [] := hsound.laid
  have hfull := hring.full_eq (by decide)
  rw [← packetWords_eq, ← occupied, hfollow.occupied_eq, hfollow.mac, hfollow.pktWrPtr] at hfull
  exact hfull

/-- **Room for one more packet**, where the ring is not full. -/
theorem Ringed.free_of_full (h : Ringed w) (hfull : w.buffers.full = false) :
    total w.ledger.records + maxReservPktBuf < 2 ^ txPktBufAdrsize := by
  rw [h.full_eq, decide_eq_false_iff_not] at hfull
  omega

/-- A write goes to the free space. -/
theorem Ringed.offset_free (h : Ringed w) (hc : Watched.StreamsOnly (w, c))
    (hw : w.buffers.writes c = true) :
    total w.ledger.records + w.buffers.tx.sm.offset < 2 ^ txPktBufAdrsize := by
  have hfree := h.free fun hquiet => by
    rw [TxBuffers.writes, hquiet.not_write (c := (w.buffers.txInput c, w.buffers.mac.rdAddr))] at hw
    cases hw
  have hoffset := h.filling.offset_lt (c := (w.buffers.txInput c, w.buffers.mac.rdAddr)) h.size
    (fun htakes => hc.size htakes) hw
  omega

/-- **No write hits a packet.** -/
theorem Ringed.not_hit (h : Ringed w) (hc : Watched.StreamsOnly (w, c))
    (hw : w.buffers.writes c = true) {r : Record txPktBufAdrsize} (hr : r ∈ w.ledger.records)
    {j : ℕ} (hj : j < r.length) :
    r.start + BitVec.ofNat txPktBufAdrsize j ≠ w.buffers.tx.sm.wrAddr :=
  h.linked.ne_of_free (h.offset_free hc hw) hr hj

/-- **A commit**: the packet stands at the pointer, with as many words as the
ledger has. -/
theorem Ringed.packet (h : Ringed w) (hc : Watched.StreamsOnly (w, c))
    (hcommit : w.buffers.commits c = true) :
    ∃ p, w.buffers.packet c = some p ∧ p.words.length = payload + w.ledger.words ∧
      (w.buffers.step c).tx.sm.pktPtr = w.buffers.tx.sm.pktPtr +
        BitVec.ofNat txPktBufAdrsize p.words.length ∧
      ram.Holds (w.buffers.step c).tx.buffer w.buffers.tx.sm.pktPtr 0 (endMarked p.words) := by
  have hsize := h.size
  have hmax : maxReservPktBuf < 2 ^ txPktBufAdrsize := by decide
  have hpayload : payload = 21 := rfl
  obtain ⟨-, hptr, frame, hlength, hheld⟩ :=
    h.filling.commit (c := (w.buffers.txInput c, w.buffers.mac.rdAddr)) hc.request
      (h.size.trans (by decide)) hcommit
  rw [← hlength] at hptr
  have hleft : leftFrame w.buffers.tx (w.buffers.step c).tx = frame :=
    leftFrame_eq (by omega) hptr hheld
  refine ⟨⟨frame, by omega, by omega⟩, ?_, hlength, hptr, hheld⟩
  rw [TxBuffers.packet, dif_pos ⟨hcommit, by rw [hleft]; omega, by rw [hleft]; omega⟩]
  simp only [hleft]

theorem TxBuffers.packet_eq_none {s : TxBuffers ram} (h : s.commits c = false) :
    s.packet c = none := by
  rw [TxBuffers.packet, dif_neg]
  rintro ⟨hcommit, -⟩
  rw [h] at hcommit
  cases hcommit

/-- **The write side keeps its promises.** -/
theorem Following.supplied (h : Following w r) (hring : Ringed w)
    (hc : Watched.StreamsOnly (w, c)) : TxReadSide.Supplied (r, w.buffers.supply c) where
  write hwe := by
    refine ⟨w.buffers.tx.sm.offset, ?_, ?_⟩
    · rw [h.occupied_eq]
      exact hring.offset_free hc hwe
    · rw [h.pktWrPtr]
      rfl
  commit p hp := by
    obtain ⟨hcommit, -⟩ := w.buffers.packet_eq_some c hp
    obtain ⟨p', hp', hlength, -, hheld⟩ := hring.packet hc hcommit
    obtain rfl : p' = p := Option.some.inj (hp'.symm.trans hp)
    have hbusy : ¬ Quiet w.buffers.tx := by
      intro hq
      rw [TxBuffers.commits, TxWriteSide.commits, decide_eq_true_eq, hq.state] at hcommit
      exact absurd hcommit.1 (by decide)
    have hfree := hring.free hbusy
    have hsize := hring.size
    refine ⟨?_, ?_⟩
    · rw [h.occupied_eq, hlength]
      omega
    · have hbuffer : (r.step (w.buffers.supply c)).buffer = (w.buffers.step c).tx.buffer := by
        rw [TxReadSide.step, h.mac, h.buffer]
        rfl
      rw [hbuffer, h.pktWrPtr]
      exact hheld

/-- **One edge of both.** -/
theorem Following.step (h : Following w r) (hring : Ringed w)
    (hc : Watched.StreamsOnly (w, c)) : Following (w.step c) (r.step (w.buffers.supply c)) := by
  have hleft : (r.left (w.buffers.supply c)).map (fun p => p.words.length) =
      (if w.buffers.finishes c then w.ledger.records.tail else w.ledger.records).map
        Record.length := by
    rw [TxReadSide.left, h.finishes]
    cases w.buffers.finishes c with
    | true =>
      change r.pending.tail.map _ = w.ledger.records.tail.map _
      rw [List.map_tail, List.map_tail, h.lengths]
    | false => exact h.lengths
  refine ⟨?_, ?_, ?_, ?_⟩
  · rw [TxReadSide.step, TxReadSide.macNext, h.empty, h.mac, h.buffer]
    rfl
  · rw [TxReadSide.step, h.mac, h.buffer]
    rfl
  · change r.pktWrPtr + BitVec.ofNat _ (occupied (w.buffers.packet c).toList) =
      (w.buffers.step c).tx.sm.pktPtr
    rw [h.pktWrPtr]
    cases hcommit : w.buffers.commits c with
    | true =>
      obtain ⟨p, hp, -, hptr, -⟩ := hring.packet hc hcommit
      rw [hp, hptr, Option.toList_some, occupied_cons, occupied_nil, Nat.add_zero]
    | false =>
      rw [TxBuffers.packet_eq_none hcommit, Option.toList_none, occupied_nil]
      have hptr := (hring.filling.step (c := (w.buffers.txInput c, w.buffers.mac.rdAddr))
        hc.request (hring.size.trans_lt (by decide)) hcommit).2
      exact (BitVec.add_zero _).trans hptr.symm
  · change ((r.left (w.buffers.supply c)) ++ (w.buffers.packet c).toList).map _ =
      (w.ledger.step w.buffers c).records.map _
    rw [Ledger.step, List.map_append, List.map_append, hleft]
    congr 1
    cases hcommit : w.buffers.commits c with
    | true =>
      obtain ⟨p, hp, hlength, -, -⟩ := hring.packet hc hcommit
      rw [hp, if_pos rfl]
      change [p.words.length] = [payload + w.ledger.words]
      rw [hlength]
    | false =>
      rw [TxBuffers.packet_eq_none hcommit]
      rfl

/-- A reader that stands where that of the machine does, after an edge. -/
theorem Ringed.reader_step (h : Ringed w) (hc : Watched.StreamsOnly (w, c)) :
    ∃ r : TxReadSide ram, Following (w.step c) r ∧ r.Sound := by
  obtain ⟨r, hfollow, hsound⟩ := h.reader
  exact ⟨r.step (w.buffers.supply c), hfollow.step h hc, hsound.step (hfollow.supplied h hc)⟩

/-- What is left of the packets still fills the ring up to the committed end. -/
theorem Ringed.linked_left (h : Ringed w) (c : TxBuffersInput) :
    Linked (w.buffers.step c).mac.pktPtr
      (if w.buffers.finishes c then w.ledger.records.tail else w.ledger.records)
      w.buffers.tx.sm.pktPtr := by
  obtain ⟨r, hfollow, hsound⟩ := h.reader
  have hmac : r.macNext (w.buffers.supply c) = (w.buffers.step c).mac := by
    rw [TxReadSide.macNext, hfollow.empty, hfollow.mac, hfollow.buffer]
    rfl
  have hlinked := h.linked
  cases hfin : w.buffers.finishes c with
  | false =>
    obtain ⟨-, hptr⟩ := TxReadSide.keep_of_finishes (hfollow.finishes.trans hfin)
    rw [hmac, hfollow.mac] at hptr
    rw [hptr]
    exact hlinked
  | true =>
    obtain ⟨p, hpending, hptr⟩ := hsound.finish (hfollow.finishes.trans hfin)
    have hlengths := hfollow.lengths
    rw [hpending, List.map_cons, eq_comm, List.map_eq_cons_iff] at hlengths
    obtain ⟨rec, rs, hrecords, hlength, -⟩ := hlengths
    rw [hmac, hfollow.mac, ← hlength] at hptr
    rw [hrecords] at hlinked ⊢
    rw [hptr]
    exact hlinked.2

/-- **The edge that commits a packet** keeps the ring. -/
theorem Ringed.step_commit (h : Ringed w) (hc : Watched.StreamsOnly (w, c))
    (hcommit : w.buffers.commits c = true) : Ringed (w.step c) := by
  obtain ⟨⟨hfilling, hquiet⟩, hptr, -⟩ :=
    h.filling.commit (c := (w.buffers.txInput c, w.buffers.mac.rdAddr)) hc.request
      (h.size.trans (by decide)) hcommit
  have hwords : (w.ledger.step w.buffers c).words = 0 := if_pos hcommit
  have hrecords : (w.ledger.step w.buffers c).records =
      (if w.buffers.finishes c then w.ledger.records.tail else w.ledger.records) ++
        [w.ledger.packet w.buffers] :=
    congrArg _ (if_pos hcommit)
  refine ⟨?_, ?_, ?_, fun hnot => absurd hquiet hnot, h.reader_step hc⟩
  · rw [Watched.step, hwords]
    exact hfilling
  · rw [Watched.step, hwords]
    decide
  · rw [Watched.step, hrecords]
    have hconcat := (h.linked_left c).concat (r := w.ledger.packet w.buffers) rfl
    have hptr' : (w.buffers.step c).tx.sm.pktPtr = w.buffers.tx.sm.pktPtr +
        BitVec.ofNat txPktBufAdrsize (w.ledger.packet w.buffers).length := hptr
    rw [hptr']
    exact hconcat

/-- What is left of the packets when one may be sent to its end. -/
theorem total_left_le {fin : Bool} {records : List (Record txPktBufAdrsize)} :
    total (if fin then records.tail else records) ≤ total records := by
  cases fin with
  | true => exact total_tail_le
  | false => exact Nat.le_refl _

/-- **An edge that commits none** keeps the ring: at most a word is taken. -/
theorem Ringed.step_fill (h : Ringed w) (hc : Watched.StreamsOnly (w, c))
    (hcommit : w.buffers.commits c = false) : Ringed (w.step c) := by
  obtain ⟨hfilling, hptr⟩ :=
    h.filling.step (c := (w.buffers.txInput c, w.buffers.mac.rdAddr)) hc.request
      (h.size.trans_lt (by decide)) hcommit
  have hwords : (w.ledger.step w.buffers c).words =
      if w.buffers.takes c then w.ledger.words + 1 else w.ledger.words :=
    if_neg (by rw [hcommit]; decide)
  have hrecords : (w.ledger.step w.buffers c).records =
      if w.buffers.finishes c then w.ledger.records.tail else w.ledger.records := by
    rw [Ledger.step, hcommit]
    exact List.append_nil _
  refine ⟨?_, ?_, ?_, fun hnot => ?_, h.reader_step hc⟩
  · rw [Watched.step, hwords]
    exact hfilling
  · rw [Watched.step, hwords]
    split
    · rename_i htakes
      exact hc.size htakes
    · exact h.size
  · have hptr' : (w.buffers.step c).tx.sm.pktPtr = w.buffers.tx.sm.pktPtr := hptr
    rw [Watched.step, hrecords, hptr']
    exact h.linked_left c
  · -- a packet is begun where the ring is not full
    have hfree : total w.ledger.records + maxReservPktBuf < 2 ^ txPktBufAdrsize := by
      by_cases hquiet : Quiet w.buffers.tx
      · refine h.free_of_full (Bool.eq_false_iff.2 fun hfull => hnot ?_)
        exact hquiet.step (c := (w.buffers.txInput c, w.buffers.mac.rdAddr)) hc.request hfull
      · exact h.free hquiet
    have hleft : total (if w.buffers.finishes c then w.ledger.records.tail
        else w.ledger.records) ≤ total w.ledger.records := total_left_le
    rw [Watched.step, hrecords]
    omega

/-- **One edge keeps the ring.** -/
theorem Ringed.step (h : Ringed w) (hc : Watched.StreamsOnly (w, c)) : Ringed (w.step c) := by
  cases hcommit : w.buffers.commits c with
  | true => exact h.step_commit hc hcommit
  | false => exact h.step_fill hc hcommit

end Ringed

namespace Watched

variable {w : Watched ram} {cs : List TxBuffersInput}

/-- **The ring is safe.** In every run from a reset that is driven by
stream packets only, the distance of the packet pointers is what the
packets occupy that are committed and not sent to their end, `Empty` is up
when there is none, and no write of such a cycle hits a word of one. -/
theorem ringSafety (h : ∀ x ∈ trace step w.reset cs, StreamsOnly x) :
    ((run step w.reset cs).buffers.tx.sm.pktWrPtr -
      (run step w.reset cs).buffers.mac.pktRdPtr).toNat =
        total (run step w.reset cs).ledger.records ∧
    ((run step w.reset cs).buffers.empty = true ↔
      (run step w.reset cs).ledger.records = []) ∧
    ∀ c, StreamsOnly (run step w.reset cs, c) → (run step w.reset cs).buffers.writes c = true →
      ∀ r ∈ (run step w.reset cs).ledger.records, ∀ j < r.length,
        r.start + BitVec.ofNat txPktBufAdrsize j ≠
          (run step w.reset cs).buffers.tx.sm.wrAddr := by
  have hring : Ringed (run step w.reset cs) :=
    run_guarded (ringed_reset w) (fun _ _ hc hw => hw.step hc) h
  exact ⟨hring.linked.toNat_sub hring.room, hring.empty,
    fun c hc hw r hr j hj => hring.not_hit hc hw hr hj⟩

/-! A packet of two words, committed while the MAC stalls. -/

/-- The buffers, with nothing in them. -/
def sampleWatched : Watched (array txPktBufAdrsize 17) where
  buffers := { tx := sampleTx, mac := TxPkt2Mac.reset }
  ledger := {}

/-- A cycle in which the MAC stalls. -/
def sampleStall (connected valid eop : Bool) : TxBuffersInput where
  tx := {
    connected, txLlData := 0xCAFE, txLlValid := valid, txLlEop := eop, ethRegs := sampleRegs }
  stall := true

def sampleCycles : List TxBuffersInput :=
  [sampleStall true false false, sampleStall false true false, sampleStall false true true] ++
    List.replicate headerCycles (sampleStall false false false)

theorem ringSafety_sample :
    ((run step sampleWatched.reset sampleCycles).buffers.tx.sm.pktWrPtr -
      (run step sampleWatched.reset sampleCycles).buffers.mac.pktRdPtr).toNat = 23 ∧
    (run step sampleWatched.reset sampleCycles).buffers.empty = false := by
  have htotal : total (run step sampleWatched.reset sampleCycles).ledger.records = 23 := by
    decide +kernel
  have hstreams : ∀ x ∈ trace step sampleWatched.reset sampleCycles, StreamsOnly x := by
    decide +kernel
  obtain ⟨hdist, hempty, _⟩ := ringSafety hstreams
  refine ⟨hdist.trans htotal, Bool.eq_false_iff.2 fun h => ?_⟩
  rw [hempty.1 h] at htotal
  cases htotal

end Watched

end Ipmux

end WrCalibration
