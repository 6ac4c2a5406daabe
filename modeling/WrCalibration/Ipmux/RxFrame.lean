import WrCalibration.Ipmux.RxBuf2Data
import Mathlib.Data.List.GetD

/-!
# Reading a frame from the receive buffer

One pass of the machine over a UDP frame, cycle by cycle: it waits, reads
the 21 words of the headers, checks them, picks the stream, and transfers
the payload until the end of the frame. `AtCycle` says where the machine
is after each number of cycles, `AtCycle.step` that it gets there, and
`run_frame` what the streams have seen at the end.
-/

namespace WrCalibration

namespace Ipmux

open Clocked GenericDpram RxBuf2Data

/-! ## Frames -/

/-- The words of a frame from one place to another. -/
def part (lo hi : ℕ) (frame : List Word) : List Word := (frame.take hi).drop lo

/-- **A UDP frame without errors**, for a port, with `n` words of payload
and any padding. -/
structure UdpFrame (frame : List Word) (n : ℕ) (port : Word) : Prop where
  pos : 0 < n
  length : payload + n ≤ frame.length
  ethType : frame.getD (macHdr + macIdxLen) 0 = ethTypeII
  ipCheckSum : lower (rxFold (sum32 (part ipHdr udpHdr frame))) = 0
  verLen : (frame.getD (ipHdr + ipIdxVerLenTos) 0).extractLsb' 8 8 = ipVerLen
  prot : (frame.getD (ipHdr + ipIdxTtlProt) 0).extractLsb' 0 8 = ipProtUdp
  ipLength : (frame.getD (ipHdr + ipIdxLen) 0).toNat = 2 * (ipHdrCnt + udpHdrCnt + n)
  dstPort : frame.getD (udpHdr + udpIdxDstprt) 0 = port

/-- The number of words of payload, as the headers claim it. -/
def claimedPayload (hdr : List Word) : ℕ :=
  (hdr.getD (ipHdr + ipIdxLen) 0 / 2 - BitVec.ofNat 16 ipHdrCnt -
    BitVec.ofNat 16 udpHdrCnt).toNat

/-- The length is halved and the headers are taken off, without a wrap. -/
theorem UdpFrame.claimedPayload {frame : List Word} {n : ℕ} {port : Word}
    (h : UdpFrame frame n port) : Ipmux.claimedPayload frame = n := by
  have hlength := h.ipLength
  have hbound := (frame.getD (ipHdr + ipIdxLen) 0).isLt
  have hcounts : ipHdrCnt = 10 ∧ udpHdrCnt = 4 := ⟨rfl, rfl⟩
  have htwo : (2 : Word).toNat = 2 := rfl
  rw [hcounts.1, hcounts.2] at hlength
  rw [Ipmux.claimedPayload, hcounts.1, hcounts.2, BitVec.toNat_sub, BitVec.toNat_sub,
    BitVec.toNat_udiv, htwo, BitVec.toNat_ofNat, BitVec.toNat_ofNat]
  omega

theorem getD_part {a b k : ℕ} (frame : List Word) (h : a + k < b) :
    (part a b frame).getD k 0 = frame.getD (a + k) 0 := by
  rw [List.getD_eq_getElem?_getD, List.getD_eq_getElem?_getD, part, List.getElem?_drop,
    List.getElem?_take_of_lt h]

/-- The part between two others. -/
theorem part_append {lo hi : ℕ} (xs ys zs : List Word) (hlo : xs.length = lo)
    (hhi : lo + ys.length = hi) : part lo hi (xs ++ (ys ++ zs)) = ys := by
  subst hlo hhi
  rw [part, ← List.append_assoc, ← List.length_append, List.take_left, List.drop_left]

/-- The next word of a frame goes into the sum of the part it is in. -/
theorem sum32_part_take_succ {lo hi k : ℕ} {frame : List Word} (h : k < frame.length) :
    sum32 (part lo hi (frame.take (k + 1))) =
      if lo ≤ k ∧ k < hi then sum32 (part lo hi (frame.take k)) + wide (frame.getD k 0)
      else sum32 (part lo hi (frame.take k)) := by
  rw [List.getD_eq_getElem _ _ h]
  simp only [part, List.take_take]
  by_cases hhi : k < hi
  · rw [Nat.min_eq_right (by omega), Nat.min_eq_right (by omega),
      List.take_succ_eq_append_getElem h]
    by_cases hlo : lo ≤ k
    · rw [if_pos ⟨hlo, hhi⟩, List.drop_append_of_le_length (by
        rw [List.length_take]
        omega), sum32_append, sum32_singleton]
    · rw [if_neg fun hk => hlo hk.1, List.drop_eq_nil_of_le (by simp; omega),
        List.drop_eq_nil_of_le (by simp; omega)]
  · rw [if_neg fun hk => hhi hk.2, Nat.min_eq_left (by omega), Nat.min_eq_left (by omega)]

/-! ## The buffer -/

variable {ram : GenericDpram rxPktBufAdrsize 17} {frame : List Word} {n : ℕ} {port : Word}
  {base : BitVec rxPktBufAdrsize} {s : RxReadSide ram} {c : RxInput}

/-- A cycle in which nothing is written over a frame. -/
def Spares (base : BitVec rxPktBufAdrsize) (frame : List Word) (c : RxInput) : Prop :=
  c.we = true → ∀ k < frame.length, base + BitVec.ofNat rxPktBufAdrsize k ≠ c.wrAddr

theorem held_step (h : ram.Holds s.buffer base 0 (endMarked frame)) (hc : Spares base frame c) :
    ram.Holds (s.step c).buffer base 0 (endMarked frame) :=
  h.step fun hwe k hk => by
    rw [Nat.zero_add]
    exact hc hwe k (by rwa [length_endMarked] at hk)

/-- The word addressed is shown in the next cycle. -/
theorem q_step (h : ram.Holds s.buffer base 0 (endMarked frame)) (hc : Spares base frame c) {o : ℕ}
    (hptr : s.sm.pktPtr = base) (hoffset : s.sm.offset = o) (ho : o < frame.length) :
    (s.step c).q = packetWord (decide (o + 1 = frame.length)) (frame.getD o 0) := by
  have haddr : s.sm.rdAddr = base + BitVec.ofNat rxPktBufAdrsize o := by
    rw [rdAddr, hptr, hoffset]
  have hread := h o (by rwa [length_endMarked])
  rw [getElem_endMarked, Nat.zero_add, ← haddr] at hread
  rw [← hread]
  exact ram.qb_step _ _ _ _ _ fun hw => hc hw.1 o ho (by rw [← haddr, hw.2])

/-! ## The headers -/

/-- The machine waits for a frame. -/
structure Waiting (base : BitVec rxPktBufAdrsize) (s : RxBuf2Data) : Prop where
  state : s.state = .idle
  idx : s.idx = 0
  offset : s.offset = macHdr
  pktPtr : s.pktPtr = base
  errorVector : s.errorVector = 0
  wrReqIntern : s.wrReqIntern = false
  eodOut : s.eodOut = false
  ipCheckSum : s.ipCheckSum = 0

/-- Every way into `Idle` initialises the machine. -/
theorem RxBuf2Data.exists_initialise {s : RxBuf2Data} {empty full eofIn : Bool} {din : Word}
    {regs : EthRegs} (h : (s.step empty full eofIn din regs).state = .idle) :
    ∃ s', s.step empty full eofIn din regs = initialise s' := by
  have hedge := s.edge_step empty full eofIn din regs
  generalize s.step empty full eofIn din regs = s' at h hedge ⊢
  cases hedge with
  | initialise => exact ⟨_, rfl⟩
  | startMemAcc => cases h
  | readHeader => cases h
  | headersRead => cases h
  | pickStream => cases h
  | transferData =>
    rw [state_transferData] at h
    cases h
  | transferOtherData =>
    rw [state_transferOtherData] at h
    cases h

theorem waiting_initialise {s : RxBuf2Data} (h : s.initialise.state = .idle) :
    Waiting s.initialise.pktPtr s.initialise :=
  ⟨h, rfl, rfl, rfl, rfl, rfl, rfl, rfl⟩

/-- At the end of a frame the pointer moves over it. -/
theorem waiting_nextPacket (s : RxBuf2Data) :
    Waiting (s.pktPtr + BitVec.ofNat rxPktBufAdrsize s.offset) s.nextPacket :=
  ⟨rfl, rfl, rfl, rfl, rfl, rfl, rfl, rfl⟩

/-- A state of the receive side in some run from a reset. -/
def Reachable {ram : GenericDpram rxPktBufAdrsize 17} (r : RxReadSide ram) : Prop :=
  ∃ (r₀ : RxReadSide ram) (pre : List RxInput), r = run RxReadSide.step r₀.reset pre

/-- In `Idle` the machine is initialised, in every run from a reset. -/
theorem Reachable.exists_initialise {ram : GenericDpram rxPktBufAdrsize 17} {r : RxReadSide ram}
    (hreach : Reachable r) (h : r.sm.state = .idle) : ∃ s', r.sm = initialise s' := by
  obtain ⟨r₀, pre, rfl⟩ := hreach
  rcases List.eq_nil_or_concat pre with rfl | ⟨pre, c, rfl⟩
  · exact ⟨_, rfl⟩
  · rw [List.concat_eq_append, run_append, run_cons, run_nil] at h ⊢
    exact RxBuf2Data.exists_initialise h

/-- **In `Idle` the machine waits.** -/
theorem Reachable.waiting {ram : GenericDpram rxPktBufAdrsize 17} {r : RxReadSide ram}
    (hreach : Reachable r) (h : r.sm.state = .idle) : Waiting r.sm.pktPtr r.sm := by
  obtain ⟨s', hs'⟩ := hreach.exists_initialise h
  rw [hs'] at h ⊢
  exact waiting_initialise h

/-- **In the headers**: `j - 1` words are in the header file and in the sums. -/
structure HeaderAt (hdr : List Word) (base : BitVec rxPktBufAdrsize) (u : BitVec 32) (j : ℕ)
    (s : RxBuf2Data) : Prop where
  state : s.state = if j = 1 then .startMemAcc else .readHeader
  idx : s.idx = j
  offset : s.offset = j
  pktPtr : s.pktPtr = base
  errorVector : s.errorVector = 0
  wrReqIntern : s.wrReqIntern = false
  eodOut : s.eodOut = false
  header : ∀ k < j - 1, s.header k = hdr.getD k 0
  ipCheckSum : s.ipCheckSum = sum32 (part ipHdr udpHdr (hdr.take (j - 1)))
  udpCheckSum : s.udpCheckSum = u + sum32 (part udpHdr payload (hdr.take (j - 1)))

theorem Waiting.headerAt {s : RxBuf2Data} {full eofIn : Bool} {din : Word} {regs : EthRegs}
    (h : Waiting base s) (hdr : List Word) :
    HeaderAt hdr base s.udpCheckSum 1 (s.step false full eofIn din regs) := by
  have hsm : s.step false full eofIn din regs = s.startMemAcc := by
    simp [RxBuf2Data.step, h.state]
  rw [hsm]
  exact
    { state := rfl
      idx := by simp [startMemAcc, h.idx]
      offset := by simp [startMemAcc, h.idx, macHdr]
      pktPtr := h.pktPtr
      errorVector := h.errorVector
      wrReqIntern := h.wrReqIntern
      eodOut := h.eodOut
      header := fun k hk => absurd hk (Nat.not_lt_zero k)
      ipCheckSum := h.ipCheckSum
      udpCheckSum := by simp [startMemAcc, part] }

theorem header_readHeader (s : RxBuf2Data) (din : Word) (k : ℕ) (hidx : s.idx - 1 < headerCnt) :
    (s.readHeader din).header k = if k = s.idx - 1 then din else s.header k := by
  have hgetD : ∀ v : Vector Word headerCnt, v.getD k 0 = v[k]?.getD 0 := by
    intro v
    simp [Vector.getD]
  rw [header, header, RxBuf2Data.readHeader, hgetD, hgetD, memAccTicks,
    Vector.getElem?_setIfInBounds]
  by_cases hk : k = s.idx - 1
  · rw [if_pos hk, if_pos hk.symm, if_pos hidx]
    rfl
  · rw [if_neg hk, if_neg (Ne.symm hk)]

/-- **One word of the headers.** -/
theorem HeaderAt.step {hdr : List Word} {u : BitVec 32} {j : ℕ} {s : RxBuf2Data}
    {empty full eofIn : Bool} {din : Word} {regs : EthRegs} (h : HeaderAt hdr base u j s)
    (hj : 0 < j) (hj' : j ≤ payload) (hlen : j ≤ hdr.length) (hdin : din = hdr.getD (j - 1) 0) :
    HeaderAt hdr base u (j + 1) (s.step empty full eofIn din regs) := by
  have hj21 : j ≤ 21 := hj'
  obtain ⟨k, rfl⟩ : ∃ k, j = k + 1 := ⟨j - 1, by omega⟩
  rw [Nat.add_sub_cancel] at hdin
  have hsm : s.step empty full eofIn din regs = s.readHeader (hdr.getD k 0) := by
    rw [← hdin]
    by_cases hone : k = 0
    · simp [RxBuf2Data.step, h.state, h.idx, hone, memAccTicks]
    · have hne : k + 1 ≠ memAccTicks + payload := by
        change k + 1 ≠ 22
        omega
      simp [RxBuf2Data.step, h.state, h.idx, hone, hne]
  -- both sums grow by the word that is shown, where it is theirs
  have hsums : ∀ lo hi, sum32 (part lo hi (hdr.take (k + 1))) = _ := fun lo hi =>
    sum32_part_take_succ (by omega)
  constructor <;> try rw [hsm]
  · simp [RxBuf2Data.readHeader]
  · simp [RxBuf2Data.readHeader, h.idx]
  · simp [RxBuf2Data.readHeader, h.idx, macHdr]
  · exact h.pktPtr
  · exact h.errorVector
  · exact h.wrReqIntern
  · exact h.eodOut
  · intro i hi
    rw [header_readHeader _ _ _ (by rw [h.idx]; change k + 1 - 1 < 21; omega), h.idx,
      Nat.add_sub_cancel]
    by_cases hik : i = k
    · rw [if_pos hik, hik]
    · rw [if_neg hik, h.header i (by omega)]
  · simp only [RxBuf2Data.readHeader, h.idx, h.ipCheckSum, Nat.add_sub_cancel, memAccTicks, hsums]
  · simp only [RxBuf2Data.readHeader, h.idx, h.udpCheckSum, Nat.add_sub_cancel, memAccTicks, hsums]
    split
    · rw [add_assoc]
    · rfl

/-- The headers of a frame are read, and its next word is shown. The sum of the
UDP words is what it was before the frame, whatever that is. -/
structure Reading (frame : List Word) (base : BitVec rxPktBufAdrsize) (j : ℕ)
    (s : RxReadSide ram) : Prop extends
    HeaderAt frame base (s.sm.udpCheckSum - sum32 (part udpHdr payload (frame.take (j - 1)))) j
      s.sm where
  q : s.q = packetWord (decide (j = frame.length)) (frame.getD (j - 1) 0)
  held : ram.Holds s.buffer base 0 (endMarked frame)

theorem HeaderAt.reading {u : BitVec 32} {j : ℕ} (h : HeaderAt frame base u j s.sm)
    (hq : s.q = packetWord (decide (j = frame.length)) (frame.getD (j - 1) 0))
    (hheld : ram.Holds s.buffer base 0 (endMarked frame)) : Reading frame base j s where
  toHeaderAt := { h with udpCheckSum := (sub_add_cancel _ _).symm }
  q := hq
  held := hheld

theorem Waiting.reading (h : Waiting base s.sm) (hempty : c.empty = false)
    (hheld : ram.Holds s.buffer base 0 (endMarked frame)) (hc : Spares base frame c)
    (hlen : 0 < frame.length) : Reading frame base 1 (s.step c) := by
  have hq := q_step hheld hc h.pktPtr h.offset hlen
  refine HeaderAt.reading (u := s.sm.udpCheckSum) ?_ hq (held_step hheld hc)
  change HeaderAt frame base _ 1 (s.sm.step c.empty _ _ _ _)
  rw [hempty]
  exact h.headerAt frame

/-- One word of the headers of a frame. -/
theorem Reading.step {j : ℕ} (h : Reading frame base j s) (hj : 0 < j) (hj' : j ≤ payload)
    (hlen : payload < frame.length) (hc : Spares base frame c) :
    Reading frame base (j + 1) (s.step c) := by
  have hq := q_step h.held hc h.pktPtr h.offset (by omega)
  have hdin : packetData s.q = frame.getD (j - 1) 0 := by rw [h.q, packetData_packetWord]
  have hnext : HeaderAt frame base _ (j + 1) (s.step c).sm :=
    h.toHeaderAt.step hj hj' (by omega) hdin
  refine hnext.reading ?_ (held_step h.held hc)
  rw [hq, Nat.add_sub_cancel]

/-! ## The checks -/

/-- Headers without errors. -/
def HeaderOk (hdr : List Word) : Prop :=
  hdr.getD (macHdr + macIdxLen) 0 = ethTypeII ∧
    lower (rxFold (sum32 (part ipHdr udpHdr hdr))) = 0 ∧
    (hdr.getD (ipHdr + ipIdxVerLenTos) 0).extractLsb' 8 8 = ipVerLen ∧
    (hdr.getD (ipHdr + ipIdxTtlProt) 0).extractLsb' 0 8 = ipProtUdp

instance (hdr : List Word) : Decidable (HeaderOk hdr) :=
  inferInstanceAs (Decidable (_ ∧ _ ∧ _ ∧ _))

theorem UdpFrame.headerOk (h : UdpFrame frame n port) : HeaderOk frame :=
  ⟨h.ethType, h.ipCheckSum, h.verLen, h.prot⟩

/-- The headers are read. -/
structure HeaderRead (hdr : List Word) (base : BitVec rxPktBufAdrsize) (u : BitVec 32)
    (s : RxBuf2Data) : Prop where
  state : s.state = .headerChecks
  offset : s.offset = 0
  pktPtr : s.pktPtr = base
  errorVector : s.errorVector = 0 ↔ HeaderOk hdr
  wrReqIntern : s.wrReqIntern = false
  eodOut : s.eodOut = false
  header : ∀ k < payload, s.header k = hdr.getD k 0
  ipLength : s.ipLength = hdr.getD (ipHdr + ipIdxLen) 0
  udpCheckSum : s.udpCheckSum = u + sum32 (part udpHdr payload hdr)

/-- No bit of the error vector is set for headers without errors only. -/
theorem headerErrors_eq_zero {s : RxBuf2Data} {hdr : List Word}
    (h : ∀ k < payload, s.header k = hdr.getD k 0) :
    s.headerErrors (rxFold (sum32 (part ipHdr udpHdr hdr))) = 0 ↔ HeaderOk hdr := by
  rw [headerErrors, h _ (by decide), h _ (by decide), h _ (by decide), HeaderOk]
  split <;> split <;> split <;> split <;> simp_all

/-- A part of the headers does not go beyond them. -/
theorem part_take {lo hi m : ℕ} {ws : List Word} (h : hi ≤ m) :
    part lo hi (ws.take m) = part lo hi ws := by
  rw [part, part, List.take_take, Nat.min_eq_left h]

theorem HeaderAt.read {hdr : List Word} {u : BitVec 32} {s : RxBuf2Data}
    {empty full eofIn : Bool} {din : Word} {regs : EthRegs}
    (h : HeaderAt hdr base u (memAccTicks + payload) s) :
    HeaderRead hdr base u (s.step empty full eofIn din regs) := by
  have hsm : s.step empty full eofIn din regs = s.headersRead := by
    have hstate := h.state
    rw [if_neg (by decide)] at hstate
    simp [RxBuf2Data.step, hstate, h.idx]
  have hheader : ∀ k < payload, s.header k = hdr.getD k 0 := h.header
  constructor <;> try rw [hsm]
  · rfl
  · rfl
  · exact h.pktPtr
  · change s.errorVector ||| s.headerErrors (rxFold s.ipCheckSum) = 0 ↔ _
    rw [h.errorVector, h.ipCheckSum, part_take (by decide), ← headerErrors_eq_zero hheader]
    simp
  · exact h.wrReqIntern
  · exact h.eodOut
  · exact hheader
  · exact hheader _ (by decide)
  · exact h.udpCheckSum.trans (by rw [part_take (by decide)])

/-- The headers of a frame in the buffer are read. -/
structure Checked (frame : List Word) (base : BitVec rxPktBufAdrsize) (s : RxReadSide ram) :
    Prop where
  read : ∃ u, HeaderRead frame base u s.sm
  held : ram.Holds s.buffer base 0 (endMarked frame)

theorem Reading.checked (h : Reading frame base (memAccTicks + payload) s)
    (hc : Spares base frame c) : Checked frame base (s.step c) :=
  ⟨⟨_, h.toHeaderAt.read⟩, held_step h.held hc⟩

theorem Checked.state (h : Checked frame base s) : s.sm.state = .headerChecks := by
  obtain ⟨u, hread⟩ := h.read
  exact hread.state

theorem Checked.errorVector (h : Checked frame base s) :
    s.sm.errorVector = 0 ↔ HeaderOk frame := by
  obtain ⟨u, hread⟩ := h.read
  exact hread.errorVector

theorem Checked.wrReqIntern (h : Checked frame base s) : s.sm.wrReqIntern = false := by
  obtain ⟨u, hread⟩ := h.read
  exact hread.wrReqIntern

/-! ## The payload -/

/-- One stream and no other. -/
def onlyStream (j : Fin numUdpPrts) : Streams := fun k => decide (k = j.castSucc)

/-- The stream of the frame is picked. -/
structure Picked (frame : List Word) (n : ℕ) (base : BitVec rxPktBufAdrsize)
    (j : Fin numUdpPrts) (s : RxReadSide ram) : Prop where
  state : s.sm.state = .statusOut
  offset : s.sm.offset = payload
  pktPtr : s.sm.pktPtr = base
  errorVector : s.sm.errorVector = 0
  wrReqIntern : s.sm.wrReqIntern = false
  eodOut : s.sm.eodOut = false
  streamIntern : s.sm.streamIntern = onlyStream j
  payloadLength : s.sm.payloadLength.toNat = n
  held : ram.Holds s.buffer base 0 (endMarked frame)

/-- **One port matches**: its stream is picked, and the headers are taken off
the length. -/
theorem Checked.picked (h : Checked frame base s) (hok : HeaderOk frame) {j : Fin numUdpPrts}
    (hport : ∀ k, c.ethRegs.udpModPrt k = frame.getD (udpHdr + udpIdxDstprt) 0 ↔ k = j)
    (hc : Spares base frame c) :
    Picked frame (claimedPayload frame) base j (s.step c) := by
  obtain ⟨u, hread⟩ := h.read
  have herror : s.sm.errorVector = 0 := hread.errorVector.2 hok
  have hsm : (s.step c).sm = s.sm.pickStream c.ethRegs := by
    simp [RxReadSide.step, RxBuf2Data.step, hread.state, herror]
  have hstreams : s.sm.portStreams c.ethRegs = fun k => decide (k = j) := by
    funext k
    rw [portStreams, hread.header _ (by decide), decide_eq_decide]
    exact hport k
  -- so the last stream, for what no port claims, is not chosen
  have hfound : (List.finRange numUdpPrts).any (s.sm.portStreams c.ethRegs) = true := by
    rw [hstreams, List.any_eq_true]
    exact ⟨j, List.mem_finRange j, by simp⟩
  constructor <;> try rw [hsm]
  · rfl
  · simp only [pickStream, hfound, if_true]
  · exact hread.pktPtr
  · exact herror
  · exact hread.wrReqIntern
  · exact hread.eodOut
  · funext k
    simp only [pickStream, hfound]
    refine Fin.lastCases ?_ (fun k => ?_) k
    · rw [Fin.lastCases_last, onlyStream]
      exact (decide_eq_false (Fin.castSucc_lt_last j).ne').symm
    · rw [Fin.lastCases_castSucc, hstreams, onlyStream]
      simp
  · simp only [pickStream, hfound, if_true, hread.ipLength, claimedPayload]
  · exact held_step h.held hc

/-- **In the payload or the padding behind it**: `t` words of them are
done, and the next one is shown. -/
structure Transferring (frame : List Word) (n : ℕ) (base : BitVec rxPktBufAdrsize)
    (j : Fin numUdpPrts) (t : ℕ) (s : RxReadSide ram) : Prop where
  state : s.sm.state = .transferData
  offset : s.sm.offset = payload + t + 1
  pktPtr : s.sm.pktPtr = base
  errorVector : s.sm.errorVector = 0
  wrReqIntern : s.sm.wrReqIntern = decide (t < n)
  eodOut : s.sm.eodOut = decide (t + 1 = n)
  streamIntern : s.sm.streamIntern = onlyStream j
  payloadLength : s.sm.payloadLength.toNat = n - (t + 1)
  q : s.q = packetWord (decide (payload + t + 1 = frame.length)) (frame.getD (payload + t) 0)
  held : ram.Holds s.buffer base 0 (endMarked frame)

theorem fullout_eq_false {stream full : Streams} (h : ∀ k, full k = false) :
    fullout stream full = false := by
  rw [fullout]
  cases (List.finRange (numUdpPrts + 1)).find? stream with
  | none => rfl
  | some k => exact h k

/-- The one stream that is selected gives its flag. -/
theorem fullout_onlyStream (j : Fin numUdpPrts) (full : Streams) :
    fullout (onlyStream j) full = full j.castSucc := by
  have hfind : (List.finRange (numUdpPrts + 1)).find? (onlyStream j) = some j.castSucc := by
    revert j
    decide
  rw [fullout, hfind]

/-- What a cycle of the transfer does to the count of the payload. -/
theorem payloadLength_transferData {m : ℕ} {s : RxBuf2Data} (din : Word)
    (h : s.payloadLength.toNat = m) :
    (s.transferData din false).payloadLength.toNat = m - 1 ∧
      (s.transferData din false).wrReqIntern = decide (0 < m) ∧
      (s.transferData din false).eodOut = decide (m = 1) := by
  have hone : s.payloadLength = 1 ↔ m = 1 := by
    rw [← h, ← BitVec.toNat_inj]
    rfl
  have hbound := s.payloadLength.isLt
  have htoNat : (1 : Word).toNat = 1 := rfl
  refine ⟨?_, ?_, ?_⟩
  · rw [transferData, if_neg (by decide)]
    by_cases hm : 0 < m
    · simp only [h, hm, decide_true, if_true]
      rw [BitVec.toNat_sub, htoNat]
      omega
    · simp only [h, hm, decide_false]
      rw [if_neg (by decide)]
      omega
  · rw [transferData, if_neg (by decide)]
    simp only [h]
  · rw [transferData, if_neg (by decide)]
    simp only [hone]

/-- A cycle in which the stream has room: the next word is done. -/
theorem transferring_of_room {j : Fin numUdpPrts} {t : ℕ}
    (hsm : (s.step c).sm = s.sm.transferData (packetData s.q) false)
    (hoffset : s.sm.offset = payload + t) (hptr : s.sm.pktPtr = base)
    (herror : s.sm.errorVector = 0) (hstream : s.sm.streamIntern = onlyStream j)
    (hcount : s.sm.payloadLength.toNat = n - t)
    (hheld : ram.Holds s.buffer base 0 (endMarked frame)) (ht : payload + t < frame.length)
    (hc : Spares base frame c) : Transferring frame n base j t (s.step c) := by
  have hq := q_step hheld hc hptr hoffset ht
  obtain ⟨hcount', hwr, heod⟩ := payloadLength_transferData (packetData s.q) hcount
  constructor <;> try rw [hsm]
  · rfl
  · change s.sm.offset + 1 = _
    rw [hoffset]
  · exact hptr
  · exact herror
  · rw [hwr, decide_eq_decide]
    omega
  · rw [heod, decide_eq_decide]
    omega
  · exact hstream
  · rw [hcount']
    omega
  · exact hq
  · exact held_step hheld hc

/-- From the headers to the payload. -/
theorem Picked.step_sm {j : Fin numUdpPrts} (h : Picked frame n base j s) :
    (s.step c).sm = s.sm.transferData (packetData s.q) (c.full j.castSucc) := by
  have hlast : s.sm.streamIntern (Fin.last numUdpPrts) = false := by
    rw [h.streamIntern]
    exact decide_eq_false (Fin.castSucc_lt_last j).ne'
  have hfull : fullout s.sm.streamIntern c.full = c.full j.castSucc := by
    rw [h.streamIntern, fullout_onlyStream]
  simp [RxReadSide.step, RxBuf2Data.step, h.state, hlast, hfull]

theorem Picked.transferring {j : Fin numUdpPrts} (h : Picked frame n base j s)
    (hfull : c.full j.castSucc = false) (hlen : payload < frame.length) (hc : Spares base frame c) :
    Transferring frame n base j 0 (s.step c) := by
  have hsm : (s.step c).sm = s.sm.transferData (packetData s.q) false := by
    rw [h.step_sm, hfull]
  exact transferring_of_room hsm h.offset h.pktPtr h.errorVector h.streamIntern h.payloadLength
    h.held hlen hc

/-- Before the end of the frame the transfer goes on. -/
theorem Transferring.step_sm {j : Fin numUdpPrts} {t : ℕ} (h : Transferring frame n base j t s)
    (ht : payload + t + 1 < frame.length) :
    (s.step c).sm = s.sm.transferData (packetData s.q) (c.full j.castSucc) := by
  have hfull : fullout s.sm.streamIntern c.full = c.full j.castSucc := by
    rw [h.streamIntern, fullout_onlyStream]
  simp [RxReadSide.step, RxBuf2Data.step, h.state, h.q, Nat.ne_of_lt ht, hfull]

/-- **One word of the payload or the padding.** -/
theorem Transferring.step {j : Fin numUdpPrts} {t : ℕ} (h : Transferring frame n base j t s)
    (hfull : c.full j.castSucc = false) (ht : payload + t + 1 < frame.length)
    (hc : Spares base frame c) : Transferring frame n base j (t + 1) (s.step c) := by
  have hsm : (s.step c).sm = s.sm.transferData (packetData s.q) false := by
    rw [h.step_sm ht, hfull]
  exact transferring_of_room hsm h.offset h.pktPtr h.errorVector h.streamIntern h.payloadLength
    h.held ht hc

/-- At the end of the frame the checksum is tested. -/
theorem Transferring.step_sm_last {j : Fin numUdpPrts} {t : ℕ}
    (h : Transferring frame n base j t s) (ht : payload + t + 1 = frame.length) (hn : n ≤ t + 1) :
    (s.step c).sm = (s.sm.finalizeUdpCheckSum (packetData s.q)).nextPacket := by
  have hzero : s.sm.payloadLength = 0 := by
    have hcount := h.payloadLength
    rw [Nat.sub_eq_zero_of_le hn] at hcount
    exact BitVec.eq_of_toNat_eq hcount
  simp [RxReadSide.step, RxBuf2Data.step, h.state, h.q, ht, hzero]

/-- **The end of the frame.** -/
theorem Transferring.waiting {j : Fin numUdpPrts} {t : ℕ} (h : Transferring frame n base j t s)
    (ht : payload + t + 1 = frame.length) (hn : n ≤ t + 1) :
    Waiting (base + BitVec.ofNat rxPktBufAdrsize frame.length) (s.step c).sm := by
  rw [h.step_sm_last ht hn, ← ht, ← h.offset, ← h.pktPtr]
  exact waiting_nextPacket (s.sm.finalizeUdpCheckSum (packetData s.q))

/-! ## A frame -/

/-- **Where the machine is** after each number of cycles. -/
inductive AtCycle (frame : List Word) (n : ℕ) (base : BitVec rxPktBufAdrsize)
    (j : Fin numUdpPrts) : ℕ → RxReadSide ram → Prop
  | reading {m : ℕ} {s : RxReadSide ram} : 0 < m → m ≤ payload + 1 → Reading frame base m s →
    AtCycle frame n base j m s
  | checked {s : RxReadSide ram} : Checked frame base s → AtCycle frame n base j (payload + 2) s
  | picked {s : RxReadSide ram} : Picked frame n base j s → AtCycle frame n base j (payload + 3) s
  | transferring {t : ℕ} {s : RxReadSide ram} : payload + t + 1 ≤ frame.length →
    Transferring frame n base j t s → AtCycle frame n base j (payload + 4 + t) s
  | waiting {s : RxReadSide ram} :
    Waiting (base + BitVec.ofNat rxPktBufAdrsize frame.length) s.sm →
    AtCycle frame n base j (frame.length + 4) s

variable {j : Fin numUdpPrts} {m : ℕ}

/-- A cycle that lets a frame pass to one stream. -/
structure Passes (frame : List Word) (port : Word) (base : BitVec rxPktBufAdrsize)
    (j : Fin numUdpPrts) (c : RxInput) : Prop where
  full : ∀ k, c.full k = false
  port : ∀ k, c.ethRegs.udpModPrt k = port ↔ k = j
  spares : Spares base frame c

/-- One cycle of the headers, which no stream can hold up. -/
theorem AtCycle.step_header (h : AtCycle frame n base j m s) (hframe : UdpFrame frame n port)
    (hm : m < payload + 3)
    (hport : m = payload + 2 → ∀ k, c.ethRegs.udpModPrt k = port ↔ k = j)
    (hc : Spares base frame c) : AtCycle frame n base j (m + 1) (s.step c) := by
  have hlen := hframe.length
  have hpos := hframe.pos
  cases h with
  | reading h0 hle h =>
    rcases Nat.lt_or_ge payload m with hlt | hge
    · have hlast : m = memAccTicks + payload := by
        change m = 1 + payload
        omega
      subst hlast
      exact .checked (h.checked hc)
    · exact .reading (by omega) (by omega) (h.step h0 hge (by omega) hc)
  | checked h =>
    have hnext := h.picked hframe.headerOk (hframe.dstPort ▸ hport rfl) hc
    exact .picked (hframe.claimedPayload ▸ hnext)
  | picked _ => exact absurd hm (Nat.lt_irrefl _)
  | transferring _ _ => omega
  | waiting _ => omega

/-- **One cycle of a frame.** -/
theorem AtCycle.step (h : AtCycle frame n base j m s) (hframe : UdpFrame frame n port)
    (hm : m < frame.length + 4) (hc : Passes frame port base j c) :
    AtCycle frame n base j (m + 1) (s.step c) := by
  have hlen := hframe.length
  have hpos := hframe.pos
  rcases Nat.lt_or_ge m (payload + 3) with hheader | hbody
  · exact h.step_header hframe hheader (fun _ => hc.port) hc.spares
  cases h with
  | reading _ hle _ => omega
  | checked _ => omega
  | picked h =>
    exact .transferring (t := 0) (by omega) (h.transferring (hc.full _) (by omega) hc.spares)
  | @transferring t _ ht h =>
    rcases Nat.lt_or_ge (payload + t + 1) frame.length with hlt | hge
    · exact .transferring (t := t + 1) (by omega) (h.step (hc.full _) hlt hc.spares)
    · have hend : payload + t + 1 = frame.length := by omega
      have hcycle : payload + 4 + t + 1 = frame.length + 4 := by omega
      rw [hcycle]
      exact .waiting (h.waiting hend (by omega))
  | waiting _ => exact absurd hm (Nat.lt_irrefl _)

/-- The machine is busy until the frame is done. -/
theorem AtCycle.state_ne (h : AtCycle frame n base j m s) (hm : m < frame.length + 4) :
    s.sm.state ≠ .idle := by
  cases h with
  | reading _ _ h =>
    rw [h.state]
    split <;> decide
  | checked h => rw [h.state]; decide
  | picked h => rw [h.state]; decide
  | transferring _ h => rw [h.state]; decide
  | waiting _ => exact absurd hm (Nat.lt_irrefl _)

theorem AtCycle.errorVector (h : AtCycle frame n base j m s) (hok : HeaderOk frame) :
    s.sm.errorVector = 0 := by
  cases h with
  | reading _ _ h => exact h.errorVector
  | checked h => exact h.errorVector.2 hok
  | picked h => exact h.errorVector
  | transferring _ h => exact h.errorVector
  | waiting h => exact h.errorVector

/-- Without a write request no stream is written. -/
theorem written_of_quiet {k : Fin (numUdpPrts + 1)} (h : s.sm.wrReqIntern = false) :
    RxReadSide.written k (s, c) = none := by
  simp [RxReadSide.written, rxStreamSel, h]

/-- **What a cycle writes** to the stream of the frame: a word of the
payload, or nothing. -/
theorem AtCycle.written (h : AtCycle frame n base j m s) (hm : m < frame.length + 4) :
    RxReadSide.written j.castSucc (s, c) =
      if payload + 4 ≤ m ∧ m < payload + 4 + n then
        some { d := frame.getD (m - 4) 0, eod := decide (m - 3 = payload + n) }
      else none := by
  cases h with
  | reading _ hle h => rw [written_of_quiet h.wrReqIntern, if_neg (by omega)]
  | checked h => rw [written_of_quiet h.wrReqIntern, if_neg (by omega)]
  | picked h => rw [written_of_quiet h.wrReqIntern, if_neg (by omega)]
  | @transferring t _ ht h =>
    by_cases htn : t < n
    · have hword : payload + 4 + t - 4 = payload + t := by omega
      have heod : decide (payload + 4 + t - 3 = payload + n) = decide (t + 1 = n) := by
        rw [decide_eq_decide]
        omega
      rw [if_pos (by omega), hword, heod]
      simp [RxReadSide.written, rxStreamSel, h.streamIntern, h.wrReqIntern, h.eodOut, h.q,
        onlyStream, htn]
    · rw [if_neg (by omega), written_of_quiet (by rw [h.wrReqIntern, decide_eq_false htn])]
  | waiting _ => exact absurd hm (Nat.lt_irrefl _)

/-- Nothing is written to any other stream. -/
theorem AtCycle.written_of_ne (h : AtCycle frame n base j m s) {k : Fin (numUdpPrts + 1)}
    (hk : k ≠ j.castSucc) : RxReadSide.written k (s, c) = none := by
  cases h with
  | reading _ _ h => exact written_of_quiet h.wrReqIntern
  | checked h => exact written_of_quiet h.wrReqIntern
  | picked h => exact written_of_quiet h.wrReqIntern
  | transferring _ h => simp [RxReadSide.written, rxStreamSel, h.streamIntern, onlyStream, hk]
  | waiting h => exact written_of_quiet h.wrReqIntern

/-- After the headers the stream is picked. -/
theorem AtCycle.picked_of_eq (h : AtCycle frame n base j m s) (hm : m = payload + 3)
    (hlen : payload < frame.length) : Picked frame n base j s := by
  cases h with
  | reading _ hle _ => omega
  | checked _ => omega
  | picked h => exact h
  | transferring _ _ => omega
  | waiting _ => omega

/-- After its last cycle the machine waits behind the frame. -/
theorem AtCycle.waiting_of_eq (h : AtCycle frame n base j m s) (hm : m = frame.length + 4)
    (hlen : payload < frame.length) :
    Waiting (base + BitVec.ofNat rxPktBufAdrsize frame.length) s.sm := by
  cases h with
  | reading _ hle _ => omega
  | checked _ => omega
  | picked _ => omega
  | transferring ht _ => omega
  | waiting h => exact h

/-- The payload of a frame, as the stream sees it. -/
theorem map_range'_payload (hlen : payload + n ≤ frame.length) :
    (List.range' (payload + 4) n).map (fun m =>
      ({ d := frame.getD (m - 4) 0, eod := decide (m - 3 = payload + n) } : Dbus)) =
      (endMarked (part payload (payload + n) frame)).map packetDbus := by
  have hpart : (part payload (payload + n) frame).length = n := by
    rw [part, List.length_drop, List.length_take]
    omega
  refine List.ext_getElem (by simp [hpart]) fun t ht _ => ?_
  rw [List.length_map, List.length_range'] at ht
  rw [List.getElem_map, List.getElem_range', List.getElem_map, getElem_endMarked, packetDbus,
    packetData_packetWord, packetEop_packetWord, hpart, List.getD_eq_getElem _ _ (by omega),
    List.getD_eq_getElem _ _ (by rwa [hpart])]
  simp only [part, List.getElem_drop, List.getElem_take]
  congr 2
  · omega
  · rw [eq_iff_iff]
    omega

/-- **A frame is read**: without an error, its payload goes to its stream
with the end of data on the last word, nothing goes to any other stream,
and the machine waits behind it. -/
theorem run_frame {cs : List RxInput} (h : Waiting base s.sm)
    (hheld : ram.Holds s.buffer base 0 (endMarked frame)) (hframe : UdpFrame frame n port)
    (hempty : c.empty = false) (hc : ∀ c' ∈ c :: cs, Passes frame port base j c')
    (hcs : (c :: cs).length = frame.length + 4) :
    (∀ x ∈ trace RxReadSide.step s (c :: cs), x.1.sm.errorVector = 0) ∧
    (∀ k, (trace RxReadSide.step s (c :: cs)).filterMap (RxReadSide.written k) =
      if k = j.castSucc then (endMarked (part payload (payload + n) frame)).map packetDbus
      else []) ∧
    Waiting (base + BitVec.ofNat rxPktBufAdrsize frame.length)
      (run RxReadSide.step s (c :: cs)).sm := by
  obtain ⟨hpass, hpasses⟩ := List.forall_mem_cons.1 hc
  have hlen := hframe.length
  have hpos := hframe.pos
  have hcs' : 1 + cs.length = frame.length + 4 := by
    rw [List.length_cons] at hcs
    omega
  have hfirst : AtCycle frame n base j 1 (s.step c) :=
    .reading (by decide) (by decide) (h.reading hempty hheld hpass.spares (by omega))
  have hstep : ∀ m, ∀ i ∈ cs, ∀ s : RxReadSide ram, 1 ≤ m → m < 1 + cs.length →
      AtCycle frame n base j m s → AtCycle frame n base j (m + 1) (s.step i) := by
    intro m i hi s _ hm hs
    exact hs.step hframe (by omega) (hpasses i hi)
  -- every cycle after the first is one of `AtCycle`
  refine ⟨?_, ?_, ?_⟩
  · intro x hx
    rw [trace, List.mem_cons] at hx
    rcases hx with rfl | hx
    · exact h.errorVector
    · obtain ⟨m, _, _, hm, _⟩ := trace_counted hfirst hstep x hx
      exact hm.errorVector hframe.headerOk
  · intro k
    rw [trace, List.filterMap_cons, written_of_quiet h.wrReqIntern]
    by_cases hk : k = j.castSucc
    · subst hk
      -- the payload leaves in a window of the cycles, one word in each
      rw [if_pos rfl, filterMap_trace_counted hfirst hstep fun m i hi s _ hm hs =>
        hs.written (by omega), filterMap_window _ (by decide) (by omega)]
      exact map_range'_payload hlen
    · rw [if_neg hk, filterMap_trace_counted hfirst hstep fun m i hi s _ hm hs =>
        hs.written_of_ne hk]
      simp
  · have hrun := run_counted hfirst hstep
    rw [hcs'] at hrun
    rw [run_cons]
    exact hrun.waiting_of_eq rfl (by omega)

end Ipmux

end WrCalibration
