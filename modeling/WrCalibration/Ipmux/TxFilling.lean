import WrCalibration.Ipmux.TxFrame

/-!
# A packet of any stream, under any registers

What is left in the transmit buffer when the registers and the stream may
change at any time: not a frame of known headers, but a frame of known
length with its end marked. `Filling` follows the write side of the buffer
through such a packet, bubbles and all, and says where it can write.
-/

namespace WrCalibration

namespace Ipmux

open Clocked GenericDpram TxData2Buf

variable {ram : GenericDpram txPktBufAdrsize 17}

/-! ## The phases of a packet -/

section Filling

variable {n : ℕ} {s : TxWriteSide ram} {c : TxInput × BitVec txPktBufAdrsize}

/-- The header file of each writing state, and where it goes. -/
inductive IsHeader (s : TxData2Buf) : TxState → ℕ → List Word → Prop
  | udp : IsHeader s .udpWriteHeader udpHdr s.udpHeaderRegFile.toList
  | ip : IsHeader s .ipWriteHeader ipHdr s.ipHeaderRegFile.toList
  | mac : IsHeader s .macWriteHeader macHdr s.macHeaderRegFile.toList

/-- **A header goes in**, in front of the `rest` of the frame. -/
structure Heading (state : TxState) (hdr : ℕ) (file rest : List Word) (n j : ℕ)
    (s : TxWriteSide ram) : Prop where
  isHeader : IsHeader s.sm state hdr file
  writing : Writing state hdr file s.sm.pktPtr (endMarked rest) j s
  pos : 0 < j
  le : j ≤ file.length
  rest_ne : rest ≠ []
  size : 0 < n
  length : hdr + file.length + rest.length = payload + n
  pktEnd : s.sm.pktEnd + 1 = BitVec.ofNat txPktBufAdrsize (payload + n)

/-- The IP checksum goes in. -/
structure Summed (rest : List Word) (n : ℕ) (s : TxWriteSide ram) : Prop where
  state : s.sm.state = .ipWriteCheckSum
  offset : s.sm.offset = ipHdr + ipIdxChecks
  selSm : s.sm.selSm = true
  wrEn : s.sm.wrEn = true
  eopOut : s.sm.eopOut = false
  held : ram.Holds s.buffer s.sm.pktPtr ipHdr (endMarked rest)
  length : ipHdr + rest.length = payload + n
  pos : 0 < n
  pktEnd : s.sm.pktEnd + 1 = BitVec.ofNat txPktBufAdrsize (payload + n)

/-- **Where the write side stands** in a packet of `n` words so far. -/
inductive Filling : ℕ → TxWriteSide ram → Prop
  | idle {s : TxWriteSide ram} : s.sm.state = .idle → s.sm.offset = payload →
    s.sm.connectReqIntern = true → s.sm.eopOut = false → Filling 0 s
  | taking {ws : List Word} {s : TxWriteSide ram} : Taking ws s → Filling ws.length s
  | heading {state : TxState} {hdr n j : ℕ} {file rest : List Word} {s : TxWriteSide ram} :
    Heading state hdr file rest n j s → Filling n s
  | summed {rest : List Word} {n : ℕ} {s : TxWriteSide ram} : Summed rest n s → Filling n s

/-- A word of a stream is stored. -/
def TxWriteSide.takes (s : TxWriteSide ram) (c : TxInput × BitVec txPktBufAdrsize) : Bool :=
  decide (s.sm.state = .moreData) && c.1.txLlValid

/-- A packet is committed: from its last header back to `Idle`. -/
def TxWriteSide.commits (s : TxWriteSide ram) (c : TxInput × BitVec txPktBufAdrsize) : Bool :=
  decide (s.sm.state = .macWriteHeader ∧ (s.step c).sm.state = .idle)

/-- Idle, and nothing can be written. -/
structure Quiet (s : TxWriteSide ram) : Prop where
  state : s.sm.state = .idle
  selSm : s.sm.selSm = true
  wrEn : s.sm.wrEn = false

/-! ## One edge in each phase -/

theorem filling_toIdle {s₀ : TxData2Buf} {p : BitVec 32} (hreq : c.1.cpuTx.request = false)
    (hsm : s.sm = s₀.toIdle c.1 p) : Filling 0 s ∧ Quiet s := by
  refine ⟨.idle ?_ ?_ ?_ ?_, ?_, ?_, ?_⟩
  all_goals rw [hsm]
  · rfl
  · rfl
  · simp [toIdle, hreq]
  · rfl
  · rfl
  · rfl
  · rfl

/-- The connection; no word is taken with it. -/
theorem taking_toMoreData (hoffset : s.sm.offset = payload) (hconn : s.sm.connectReqIntern = true)
    (heop : s.sm.eopOut = false) (hsm : (s.step c).sm = s.sm.toMoreData c.1) :
    Taking [] (s.step c) := by
  constructor <;> try rw [hsm]
  · rfl
  · simp [toMoreData, hconn, hoffset]
  · rfl
  · rfl
  · exact heop
  · intro k hk
    simp at hk

theorem Taking.heading {ws : List Word} (h : Taking ws s) (heop : c.1.txLlEop = true)
    (hvalid : c.1.txLlValid = true) (hlen : payload + ws.length < 2 ^ txPktBufAdrsize) :
    Heading .udpWriteHeader udpHdr (s.sm.toUdpWriteHeader c.1).udpHeaderRegFile.toList
      (ws ++ [c.1.txLlData]) (ws.length + 1) 1 (s.step c) := by
  have hsm : (s.step c).sm = s.sm.toUdpWriteHeader c.1 := by
    simp [TxWriteSide.step, TxData2Buf.step, h.state, heop, hvalid]
  refine ⟨?_, ?_, Nat.one_pos, ?_, by simp, Nat.succ_pos _, ?_, ?_⟩
  · rw [hsm]
    exact .udp
  · have hptr : (s.step c).sm.pktPtr = s.sm.pktPtr := by
      rw [hsm]
      rfl
    rw [hptr]
    exact h.writing heop hvalid hlen
  · rw [Vector.length_toList]
    decide
  · rw [Vector.length_toList, List.length_append, List.length_singleton]
    rfl
  · rw [hsm, ← add_assoc, BitVec.ofNat_add, ← h.offset]
    rfl

/-- The word that a writing state puts out. -/
theorem IsHeader.sm_step {state : TxState} {hdr : ℕ} {file : List Word}
    (h : IsHeader s.sm state hdr file) (hs : s.sm.state = state) (hidx : s.sm.idx < file.length) :
    ∃ s₀ : TxData2Buf, (s.step c).sm = s₀.writeWord state hdr s.sm.idx (file.getD s.sm.idx 0) ∧
      IsHeader s₀ state hdr file ∧ s₀.pktPtr = s.sm.pktPtr ∧ s₀.eopOut = s.sm.eopOut ∧
      s₀.pktEnd = s.sm.pktEnd := by
  cases h with
  | udp =>
    have hne : s.sm.idx ≠ udpHdrCnt := Nat.ne_of_lt (by rwa [Vector.length_toList] at hidx)
    refine ⟨s.sm, ?_, .udp, rfl, rfl, rfl⟩
    rw [← getD_toList]
    simp [TxWriteSide.step, TxData2Buf.step, hs, hne]
  | ip =>
    have hne : s.sm.idx ≠ ipHdrCnt := Nat.ne_of_lt (by rwa [Vector.length_toList] at hidx)
    refine ⟨{ s.sm with
      checkSum := s.sm.checkSum + wide (s.sm.ipHeaderRegFile.getD s.sm.idx 0) }, ?_, .ip, rfl, rfl,
      rfl⟩
    rw [← getD_toList]
    simp [TxWriteSide.step, TxData2Buf.step, hs, hne]
  | mac =>
    have hne : s.sm.idx ≠ macHdrCnt := Nat.ne_of_lt (by rwa [Vector.length_toList] at hidx)
    refine ⟨s.sm, ?_, .mac, rfl, rfl, rfl⟩
    rw [← getD_toList]
    simp [TxWriteSide.step, TxData2Buf.step, hs, hne]

theorem IsHeader.writeWord {s₀ : TxData2Buf} {state : TxState} {hdr : ℕ} {file : List Word}
    (h : IsHeader s₀ state hdr file) {state' : TxState} {hdr' idx : ℕ} {d : Word} :
    IsHeader (s₀.writeWord state' hdr' idx d) state hdr file := by
  cases h with
  | udp => exact .udp
  | ip => exact .ip
  | mac => exact .mac

section Heading

variable {state : TxState} {hdr j : ℕ} {file rest : List Word}

theorem Heading.room (h : Heading state hdr file rest n j s)
    (hlen : payload + n ≤ 2 ^ txPktBufAdrsize) :
    hdr + file.length + (endMarked rest).length ≤ 2 ^ txPktBufAdrsize := by
  rw [length_endMarked, h.length]
  exact hlen

/-- **The next word of a header.** -/
theorem Heading.step (h : Heading state hdr file rest n j s) (hj : j < file.length)
    (hlen : payload + n ≤ 2 ^ txPktBufAdrsize) :
    Heading state hdr file rest n (j + 1) (s.step c) ∧ (s.step c).sm.pktPtr = s.sm.pktPtr := by
  have hidx := h.writing.idx
  obtain ⟨s₀, hsm, hfile, hptr, heop, hend⟩ :=
    h.isHeader.sm_step (c := c) h.writing.state (by rwa [hidx])
  rw [hidx] at hsm
  have hptr' : (s.step c).sm.pktPtr = s.sm.pktPtr := by
    rw [hsm]
    exact hptr
  refine ⟨⟨?_, ?_, Nat.succ_pos _, hj, h.rest_ne, h.size, h.length, ?_⟩, hptr'⟩
  · rw [hsm]
    exact hfile.writeWord
  · rw [hptr']
    exact h.writing.step h.pos hj (h.room hlen) hsm hptr (heop.trans h.writing.eopOut)
  · rw [hsm, ← h.pktEnd, ← hend]
    rfl

/-- **From the UDP header to the IP header.** -/
theorem Heading.ip (h : Heading .udpWriteHeader hdr file rest n j s) (hj : j = file.length)
    (hlen : payload + n ≤ 2 ^ txPktBufAdrsize) :
    (∃ file', Heading .ipWriteHeader ipHdr file' (file ++ rest) n 1 (s.step c)) ∧
      (s.step c).sm.pktPtr = s.sm.pktPtr := by
  have hroom := h.room hlen
  have hlength := h.length
  obtain ⟨hheader, hwriting, hpos, -, hne, hn, -, hend⟩ := h
  cases hheader with
  | udp =>
    rw [Vector.length_toList] at hlength hj
    have hsm : (s.step c).sm = s.sm.toIpWriteHeader c.1 := by
      simp [TxWriteSide.step, TxData2Buf.step, hwriting.state, hwriting.idx, hj]
    have hptr : (s.step c).sm.pktPtr = s.sm.pktPtr := by
      rw [hsm]
      rfl
    refine ⟨⟨(s.sm.toIpWriteHeader c.1).ipHeaderRegFile.toList, ?_, ?_, Nat.one_pos, ?_, ?_, hn,
      ?_, ?_⟩, hptr⟩
    · rw [hsm]
      exact .ip
    -- the edge that picks the header up already writes its first word
    · have hword : (s.step c).sm = TxData2Buf.writeWord { s.sm with
          ipHeaderRegFile := (s.sm.toIpWriteHeader c.1).ipHeaderRegFile
          ipLength := (s.sm.toIpWriteHeader c.1).ipLength
          checkSum := (s.sm.toIpWriteHeader c.1).checkSum } .ipWriteHeader ipHdr 0
          ((s.sm.toIpWriteHeader c.1).ipHeaderRegFile.toList.getD 0 0) := by
        rw [hsm, ← getD_toList]
        rfl
      rw [hptr, endMarked_append hne]
      refine hwriting.next hpos (by rw [Vector.length_toList, hj]) hroom ?_ hword rfl
        hwriting.eopOut
      rw [Vector.length_toList]
      rfl
    · rw [Vector.length_toList]
      decide
    · exact List.append_ne_nil_of_right_ne_nil _ hne
    · rw [Vector.length_toList, List.length_append, Vector.length_toList, ← hlength, ← add_assoc]
      rfl
    · rw [hsm, ← hend]
      rfl

/-- **From the IP header to its checksum.** -/
theorem Heading.summed (h : Heading .ipWriteHeader hdr file rest n j s) (hj : j = file.length)
    (hlen : payload + n ≤ 2 ^ txPktBufAdrsize) :
    Summed (file ++ rest) n (s.step c) ∧ (s.step c).sm.pktPtr = s.sm.pktPtr := by
  have hroom := h.room hlen
  have hlength := h.length
  obtain ⟨hheader, hwriting, hpos, hle, hne, hn, -, hend⟩ := h
  cases hheader with
  | ip =>
    -- this edge stores the last word of the header and offers its checksum
    obtain ⟨hheld, htail⟩ := hwriting.stored (c := c) hpos hle hroom
    rw [List.take_of_length_le hj.ge] at hheld
    rw [Vector.length_toList] at hlength hj
    have hsm : (s.step c).sm = s.sm.toIpWriteCheckSum := by
      simp [TxWriteSide.step, TxData2Buf.step, hwriting.state, hwriting.idx, hj]
    have hptr : (s.step c).sm.pktPtr = s.sm.pktPtr := by
      rw [hsm]
      rfl
    refine ⟨⟨?_, ?_, ?_, ?_, ?_, ?_, ?_, hn, ?_⟩, hptr⟩
    · rw [hsm]
      rfl
    · rw [hsm]
      rfl
    · rw [hsm]
      rfl
    · rw [hsm]
      rfl
    · rw [hsm]
      exact hwriting.eopOut
    · rw [hptr, endMarked_append hne]
      exact hheld.append (by rwa [List.length_map])
    · rw [List.length_append, Vector.length_toList, ← add_assoc]
      exact hlength
    · rw [hsm, ← hend]
      rfl

/-- **The checksum in its place**, and the MAC header begun. -/
theorem Summed.heading (h : Summed rest n s) (hlen : payload + n ≤ 2 ^ txPktBufAdrsize) :
    (∃ rest', Heading .macWriteHeader macHdr s.sm.macHeaderRegFile.toList rest' n 1 (s.step c)) ∧
      (s.step c).sm.pktPtr = s.sm.pktPtr := by
  have hlength := h.length
  have hpos := h.pos
  have hsize : ipHdr = 7 ∧ payload = 21 ∧ ipIdxChecks = 5 ∧ macHdr = 0 ∧ macHdrCnt = 7 :=
    ⟨rfl, rfl, rfl, rfl, rfl⟩
  have hsm : (s.step c).sm = s.sm.writeWord .macWriteHeader macHdr 0
      (s.sm.macHeaderRegFile.toList.getD 0 0) := by
    rw [← getD_toList]
    simp [TxWriteSide.step, TxData2Buf.step, h.state]
  have hwrite : (s.step c).buffer = ram.step s.buffer true
      (s.sm.pktPtr + BitVec.ofNat txPktBufAdrsize (ipHdr + ipIdxChecks))
      (packetWord false s.sm.dout) c.2 := by
    simp [TxWriteSide.step, txWrDataSrcSel, h.selSm, wrAddr, h.wrEn, h.eopOut, h.offset]
  have hptr : (s.step c).sm.pktPtr = s.sm.pktPtr := by
    rw [hsm]
    rfl
  -- the cell of the checksum stands where the IP header left a zero
  have hset := h.held.step_set (k := ipIdxChecks) (w := packetWord false s.sm.dout) (b := c.2)
    (by rw [length_endMarked]; omega) (by rw [length_endMarked]; omega)
  rw [← hwrite, endMarked_set (by omega)] at hset
  refine ⟨⟨rest.set ipIdxChecks s.sm.dout, ?_, ?_, Nat.one_pos, ?_, ?_, hpos, ?_, ?_⟩, hptr⟩
  · rw [hsm]
    exact .mac
  · rw [hptr]
    constructor <;> try rw [hsm]
    · rfl
    · rfl
    · rfl
    · rfl
    · rfl
    · rfl
    · exact h.eopOut
    · rfl
    · intro k hk
      simp at hk
    · rw [Vector.length_toList]
      exact hset
  · rw [Vector.length_toList]
    decide
  · rw [← List.length_pos_iff, List.length_set]
    omega
  · rw [Vector.length_toList, List.length_set]
    omega
  · rw [hsm, ← h.pktEnd]
    rfl

/-- **The last word of the MAC header**: the packet is committed. -/
theorem Heading.committed (h : Heading .macWriteHeader hdr file rest n j s) (hj : j = file.length)
    (hreq : c.1.cpuTx.request = false) (hlen : payload + n ≤ 2 ^ txPktBufAdrsize) :
    (Filling 0 (s.step c) ∧ Quiet (s.step c)) ∧
      (s.step c).sm.pktPtr = s.sm.pktPtr + BitVec.ofNat txPktBufAdrsize (payload + n) ∧
      ∃ frame, frame.length = payload + n ∧
        ram.Holds (s.step c).buffer s.sm.pktPtr 0 (endMarked frame) := by
  have hroom := h.room hlen
  have hlength := h.length
  obtain ⟨hheader, hwriting, hpos, hle, hne, hn, -, hend⟩ := h
  cases hheader with
  | mac =>
    obtain ⟨hheld, htail⟩ := hwriting.stored (c := c) hpos hle hroom
    rw [List.take_of_length_le hj.ge] at hheld
    have hsm : (s.step c).sm = toIdle { s.sm with pktPtr := s.sm.pktPtr + s.sm.pktEnd + 1 } c.1
        s.pseudoHeader := by
      rw [Vector.length_toList] at hj
      simp [TxWriteSide.step, TxData2Buf.step, hwriting.state, hwriting.idx, hj]
    refine ⟨filling_toIdle hreq hsm, ?_, s.sm.macHeaderRegFile.toList ++ rest, ?_, ?_⟩
    · rw [hsm, ← hend, ← add_assoc]
      rfl
    · rw [List.length_append, ← hlength, macHdr, Nat.zero_add]
    · rw [endMarked_append hne]
      exact hheld.append (by rwa [List.length_map])

end Heading

/-! ## One edge -/

theorem takes_of_ne (h : s.sm.state ≠ .moreData) : s.takes c = false := by
  rw [TxWriteSide.takes, decide_eq_false h, Bool.false_and]

/-- **An edge that commits nothing.** -/
theorem Filling.step (h : Filling n s) (hreq : c.1.cpuTx.request = false)
    (hlen : payload + n < 2 ^ txPktBufAdrsize) (hc : s.commits c = false) :
    Filling (if s.takes c then n + 1 else n) (s.step c) ∧
      (s.step c).sm.pktPtr = s.sm.pktPtr := by
  cases h with
  | idle hs hoffset hconn heop =>
    rw [takes_of_ne (by rw [hs]; decide), if_neg (by decide)]
    by_cases hgo : (!c.1.full && c.1.connected) = true
    · have hsm : (s.step c).sm = s.sm.toMoreData c.1 := by
        simp [TxWriteSide.step, TxData2Buf.step, hs, hreq, hgo]
      refine ⟨.taking (taking_toMoreData hoffset hconn heop hsm), ?_⟩
      rw [hsm]
      rfl
    · have hsm : (s.step c).sm = s.sm.toIdle c.1 s.pseudoHeader := by
        simp [TxWriteSide.step, TxData2Buf.step, hs, hreq, hgo]
      refine ⟨(filling_toIdle hreq hsm).1, ?_⟩
      rw [hsm]
      rfl
  -- the last word of the payload starts the headers
  | @taking ws _ h =>
    have htakes : s.takes c = c.1.txLlValid := by
      rw [TxWriteSide.takes, decide_eq_true h.state, Bool.true_and]
    rw [htakes]
    by_cases hlast : (c.1.txLlEop && c.1.txLlValid) = true
    · rw [Bool.and_eq_true] at hlast
      rw [if_pos hlast.2]
      refine ⟨.heading (h.heading hlast.1 hlast.2 hlen), ?_⟩
      simp [TxWriteSide.step, TxData2Buf.step, h.state, hlast, toUdpWriteHeader, writeWord]
    · have hmore := Bool.eq_false_iff.2 hlast
      have hptr : (s.step c).sm.pktPtr = s.sm.pktPtr := by
        rw [h.sm_step hmore]
        rfl
      have htaking : Filling (ws ++ takenWord c).length (s.step c) := .taking (h.step hlen hmore)
      have hlength : (ws ++ takenWord c).length =
          if c.1.txLlValid then ws.length + 1 else ws.length := by
        rw [takenWord, List.length_append]
        split
        · rfl
        · rfl
      rw [hlength] at htaking
      exact ⟨htaking, hptr⟩
  | @heading state hdr n j file rest _ h =>
    have hne : s.sm.state ≠ .moreData := by
      rw [h.writing.state]
      cases h.isHeader <;> decide
    rw [takes_of_ne hne, if_neg (by decide)]
    -- behind a whole header the next one begins; only the MAC header commits
    rcases Nat.eq_or_lt_of_le h.le with hj | hj
    · cases hheader : h.isHeader with
      | udp =>
        obtain ⟨⟨_, hip⟩, hptr⟩ := h.ip (c := c) hj hlen.le
        exact ⟨.heading hip, hptr⟩
      | ip =>
        obtain ⟨hsummed, hptr⟩ := h.summed (c := c) hj hlen.le
        exact ⟨.summed hsummed, hptr⟩
      | mac =>
        obtain ⟨⟨_, hquiet⟩, _⟩ := h.committed hj hreq hlen.le
        rw [TxWriteSide.commits, decide_eq_false_iff_not] at hc
        exact absurd ⟨h.writing.state, hquiet.state⟩ hc
    · obtain ⟨hstep, hptr⟩ := h.step (c := c) hj hlen.le
      exact ⟨.heading hstep, hptr⟩
  | summed h =>
    rw [takes_of_ne (by rw [h.state]; decide), if_neg (by decide)]
    obtain ⟨⟨_, hmac⟩, hptr⟩ := h.heading (c := c) hlen.le
    exact ⟨.heading hmac, hptr⟩

/-- **An edge that commits the packet.** -/
theorem Filling.commit (h : Filling n s) (hreq : c.1.cpuTx.request = false)
    (hlen : payload + n ≤ 2 ^ txPktBufAdrsize) (hc : s.commits c = true) :
    (Filling 0 (s.step c) ∧ Quiet (s.step c)) ∧
      (s.step c).sm.pktPtr = s.sm.pktPtr + BitVec.ofNat txPktBufAdrsize (payload + n) ∧
      ∃ frame, frame.length = payload + n ∧
        ram.Holds (s.step c).buffer s.sm.pktPtr 0 (endMarked frame) := by
  rw [TxWriteSide.commits, decide_eq_true_eq] at hc
  obtain ⟨hs, hidle⟩ := hc
  cases h with
  | idle hs' _ _ _ => exact absurd (hs'.symm.trans hs) (by decide)
  | taking h => exact absurd (h.state.symm.trans hs) (by decide)
  | summed h => exact absurd (h.state.symm.trans hs) (by decide)
  | @heading state hdr n j file rest _ h =>
    obtain rfl : state = .macWriteHeader := h.writing.state.symm.trans hs
    rcases Nat.eq_or_lt_of_le h.le with hj | hj
    · exact h.committed hj hreq hlen
    · obtain ⟨hstep, _⟩ := h.step (c := c) hj hlen
      exact absurd (hstep.writing.state.symm.trans hidle) (by decide)

/-- Where a word can be written. -/
theorem Filling.offset_lt (h : Filling n s) (hlen : payload + n ≤ maxReservPktBuf)
    (hroom : s.takes c = true → payload + n < maxReservPktBuf)
    (hwe : (txWrDataSrcSel s.sm c.1).1 = true) : s.sm.offset < maxReservPktBuf := by
  cases h with
  | idle _ hoffset _ _ =>
    rw [hoffset]
    decide
  | taking h =>
    rw [h.offset]
    refine hroom ?_
    rw [txWrDataSrcSel, h.selSm] at hwe
    rw [TxWriteSide.takes, decide_eq_true h.state, Bool.true_and]
    exact hwe
  | heading h =>
    have hoffset := h.writing.offset
    have hlength := h.length
    have hle := h.le
    omega
  | summed h =>
    rw [h.offset]
    decide

theorem Quiet.not_write (h : Quiet s) : (txWrDataSrcSel s.sm c.1).1 = false := by
  rw [txWrDataSrcSel, h.selSm, if_pos rfl, h.wrEn]

/-- While the ring is full nothing is begun. -/
theorem Quiet.step (h : Quiet s) (hreq : c.1.cpuTx.request = false) (hfull : c.1.full = true) :
    Quiet (s.step c) := by
  have hsm : (s.step c).sm = s.sm.toIdle c.1 s.pseudoHeader := by
    simp [TxWriteSide.step, TxData2Buf.step, h.state, hreq, hfull]
  exact (filling_toIdle hreq hsm).2

end Filling

end Ipmux

end WrCalibration
