import WrCalibration.Ipmux.RxFrame

/-!
# Behind a frame of any kind

Whatever the buffer holds at the packet pointer, the machine takes 21
words of it for the headers. What follows depends on them: a frame with an
error, or for no port, is passed to the CPU from its first word to its end
(`Other`); of any other the machine counts the payload the headers claim
(`Counting`), and looks for the end of the frame only then. A frame that
ends before is not noticed.
-/

namespace WrCalibration

namespace Ipmux

open Clocked GenericDpram RxBuf2Data

variable {ram : GenericDpram rxPktBufAdrsize 17} {frame hdr : List Word} {n : ℕ}
  {base : BitVec rxPktBufAdrsize} {s : RxReadSide ram} {c : RxInput} {cs : ℕ → RxInput}

/-! ## The headers -/

/-- The words the buffer shows while the headers are read. -/
def shownHeader (s : RxReadSide ram) (cs : ℕ → RxInput) : List Word :=
  (List.range headerCnt).map fun k => packetData (run RxReadSide.step s (upTo cs (k + 1))).q

@[simp] theorem length_shownHeader : (shownHeader s cs).length = headerCnt := by
  rw [shownHeader, List.length_map, List.length_range]

theorem getD_shownHeader {k : ℕ} (hk : k < headerCnt) : (shownHeader s cs).getD k 0 =
    packetData (run RxReadSide.step s (upTo cs (k + 1))).q := by
  rw [List.getD_eq_getElem?_getD, shownHeader, List.getElem?_map, List.getElem?_range hk]
  rfl

/-- The machine has the state `Idle`. -/
def RxReadSide.Idle (s : RxReadSide ram) : Prop := s.sm.state = .idle

instance (s : RxReadSide ram) : Decidable s.Idle := inferInstanceAs (Decidable (_ = _))

theorem headerAt_upTo (h : Waiting base s.sm) (hempty : (cs 0).empty = false) {m : ℕ} (hm : 0 < m)
    (hm' : m ≤ memAccTicks + payload) :
    HeaderAt (shownHeader s cs) base s.sm.udpCheckSum m
      (run RxReadSide.step s (upTo cs m)).sm := by
  have hheaders : memAccTicks + payload = headerCnt + 1 := by decide
  induction m, hm using Nat.le_induction with
  | base =>
    rw [run_upTo_succ]
    change HeaderAt _ _ _ 1 (s.sm.step (cs 0).empty _ _ _ _)
    rw [hempty]
    exact h.headerAt _
  | succ m hm ih =>
    have hlen : (shownHeader s cs).length = headerCnt := length_shownHeader
    have hcnt : headerCnt = payload := by decide
    have hdin : packetData (run RxReadSide.step s (upTo cs m)).q =
        (shownHeader s cs).getD (m - 1) 0 := by
      rw [getD_shownHeader (by omega), Nat.sub_add_cancel hm]
    rw [run_upTo_succ]
    exact (ih (by omega)).step hm (by omega) (by omega) hdin

theorem headerRead_upTo (h : Waiting base s.sm) (hempty : (cs 0).empty = false) :
    HeaderRead (shownHeader s cs) base s.sm.udpCheckSum
      (run RxReadSide.step s (upTo cs (payload + 2))).sm := by
  have hlast := headerAt_upTo h hempty (m := memAccTicks + payload) (by decide) (Nat.le_refl _)
  rw [run_upTo_succ]
  exact hlast.read

/-- While the headers are read the machine is busy, and the offset small. -/
theorem busy_headers (h : Waiting base s.sm) (hempty : (cs 0).empty = false) {m : ℕ} (hm : 0 < m)
    (hm' : m ≤ payload + 2) : ¬ (run RxReadSide.step s (upTo cs m)).Idle ∧
      (run RxReadSide.step s (upTo cs m)).sm.offset ≤ payload + 1 := by
  have hticks : memAccTicks = 1 := rfl
  rcases Nat.lt_or_ge m (payload + 2) with hlt | hge
  · have hat := headerAt_upTo h hempty hm (by omega)
    constructor
    · rw [RxReadSide.Idle, hat.state]
      split <;> decide
    · rw [hat.offset]
      omega
  · obtain rfl : m = payload + 2 := by omega
    have hread := headerRead_upTo h hempty
    constructor
    · rw [RxReadSide.Idle, hread.state]
      decide
    · rw [hread.offset]
      omega

/-- The buffer keeps a frame that is not written over. -/
theorem held_upTo (hheld : ram.Holds s.buffer base 0 (endMarked frame))
    (hcs : ∀ m, Spares base frame (cs m)) (m : ℕ) :
    ram.Holds (run RxReadSide.step s (upTo cs m)).buffer base 0 (endMarked frame) := by
  induction m with
  | zero => exact hheld
  | succ m ih =>
    rw [run_upTo_succ]
    exact held_step ih (hcs m)

/-- Of a frame that is long enough the headers are its first words. -/
theorem shownHeader_eq (h : Waiting base s.sm) (hempty : (cs 0).empty = false)
    (hheld : ram.Holds s.buffer base 0 (endMarked frame)) (hcs : ∀ m, Spares base frame (cs m))
    (hlen : payload ≤ frame.length) : shownHeader s cs = frame.take headerCnt := by
  have hcnt : headerCnt = payload := by decide
  have hticks : memAccTicks = 1 := rfl
  refine List.ext_getElem ?_ fun k hk hk' => ?_
  · rw [length_shownHeader, List.length_take]
    omega
  · rw [length_shownHeader] at hk
    have hoffset : (run RxReadSide.step s (upTo cs k)).sm.offset = k ∧
        (run RxReadSide.step s (upTo cs k)).sm.pktPtr = base := by
      rcases Nat.eq_zero_or_pos k with rfl | hpos
      · exact ⟨h.offset, h.pktPtr⟩
      · have hat := headerAt_upTo h hempty hpos (by omega)
        exact ⟨hat.offset, hat.pktPtr⟩
    have hq := q_step (held_upTo hheld hcs k) (hcs k) hoffset.2 hoffset.1 (by omega)
    have hword : (shownHeader s cs).getD k 0 = _ := getD_shownHeader hk
    rw [run_upTo_succ, hq, packetData_packetWord, List.getD_eq_getElem _ _ (by simpa using hk),
      List.getD_eq_getElem _ _ (by omega)] at hword
    rw [hword, List.getElem_take]

/-! ## A frame for the CPU -/

/-- **A frame for the CPU**: `t` words of it are done, and the next one is
shown. -/
structure Other (frame : List Word) (base : BitVec rxPktBufAdrsize) (t : ℕ) (s : RxReadSide ram) :
    Prop where
  state : s.sm.state = .transferOtherData
  offset : s.sm.offset = t + 1
  pktPtr : s.sm.pktPtr = base
  wrReqIntern : s.sm.wrReqIntern = true
  q : s.q = packetWord (decide (t + 1 = frame.length)) (frame.getD t 0)
  held : ram.Holds s.buffer base 0 (endMarked frame)

/-- A word of a frame for the CPU, from the first one on. -/
theorem other_of_offset {t : ℕ} (hsm : (s.step c).sm = s.sm.transferOtherData false)
    (hoffset : s.sm.offset = t) (hptr : s.sm.pktPtr = base)
    (hheld : ram.Holds s.buffer base 0 (endMarked frame)) (hc : Spares base frame c)
    (ht : t < frame.length) : Other frame base t (s.step c) := by
  have hq := q_step hheld hc hptr hoffset ht
  constructor <;> try rw [hsm]
  · rfl
  · change s.sm.offset + 1 = _
    rw [hoffset]
  · exact hptr
  · rfl
  · exact hq
  · exact held_step hheld hc

theorem Other.step {t : ℕ} (h : Other frame base t s) (hfull : ∀ k, c.full k = false)
    (hc : Spares base frame c) (ht : t + 1 < frame.length) :
    Other frame base (t + 1) (s.step c) := by
  have hsm : (s.step c).sm = s.sm.transferOtherData false := by
    simp [RxReadSide.step, RxBuf2Data.step, h.state, h.q, Nat.ne_of_lt ht, fullout_eq_false hfull]
  exact other_of_offset hsm h.offset h.pktPtr h.held hc ht

theorem Other.waiting {t : ℕ} (h : Other frame base t s) (ht : t + 1 = frame.length) :
    Waiting (base + BitVec.ofNat rxPktBufAdrsize frame.length) (s.step c).sm := by
  have hsm : (s.step c).sm = s.sm.nextPacket := by
    simp [RxReadSide.step, RxBuf2Data.step, h.state, h.q, ht, h.wrReqIntern]
  rw [hsm, ← ht, ← h.offset, ← h.pktPtr]
  exact waiting_nextPacket _

/-! ## A frame for a port -/

/-- Some port is the destination port of the headers. -/
def PortFound (regs : EthRegs) (hdr : List Word) : Prop :=
  ∃ k, regs.udpModPrt k = hdr.getD (udpHdr + udpIdxDstprt) 0

instance (regs : EthRegs) (hdr : List Word) : Decidable (PortFound regs hdr) :=
  inferInstanceAs (Decidable (∃ _, _))

/-- The headers are checked. -/
structure StatusOut (found : Bool) (n : ℕ) (base : BitVec rxPktBufAdrsize) (s : RxBuf2Data) :
    Prop where
  state : s.state = .statusOut
  offset : s.offset = if found then payload else 0
  pktPtr : s.pktPtr = base
  stream : s.streamIntern (Fin.last numUdpPrts) = !found
  payloadLength : found = true → s.payloadLength.toNat = n

theorem HeaderRead.statusOut {u : BitVec 32} {s : RxBuf2Data} {empty full eofIn : Bool}
    {din : Word} {regs : EthRegs} (h : HeaderRead hdr base u s) (hok : HeaderOk hdr) :
    StatusOut (decide (PortFound regs hdr)) (claimedPayload hdr) base
      (s.step empty full eofIn din regs) := by
  have hsm : s.step empty full eofIn din regs = s.pickStream regs := by
    simp [RxBuf2Data.step, h.state, h.errorVector.2 hok]
  have hfound : (List.finRange numUdpPrts).any (s.portStreams regs) =
      decide (PortFound regs hdr) := by
    rw [Bool.eq_iff_iff, List.any_eq_true, decide_eq_true_iff]
    constructor
    · rintro ⟨k, -, hk⟩
      rw [portStreams, h.header _ (by decide), decide_eq_true_iff] at hk
      exact ⟨k, hk⟩
    · rintro ⟨k, hk⟩
      refine ⟨k, List.mem_finRange k, ?_⟩
      rw [portStreams, h.header _ (by decide), decide_eq_true_iff]
      exact hk
  constructor <;> try rw [hsm]
  · rfl
  · simp only [pickStream, hfound]
  · exact h.pktPtr
  · simp only [pickStream, hfound, Fin.lastCases_last]
  · intro htrue
    simp only [pickStream, hfound, htrue, if_true, h.ipLength, claimedPayload]

/-- **Counting the payload**: what is left of it after `i` words. -/
structure Counting (n : ℕ) (base : BitVec rxPktBufAdrsize) (i : ℕ) (s : RxBuf2Data) : Prop where
  state : s.state = .transferData
  offset : s.offset = payload + i + 1
  pktPtr : s.pktPtr = base
  payloadLength : s.payloadLength.toNat = n - (i + 1)

theorem StatusOut.counting (h : StatusOut true n base s.sm) (hfull : ∀ k, c.full k = false) :
    Counting n base 0 (s.step c).sm := by
  have hsm : (s.step c).sm = s.sm.transferData (packetData s.q) false := by
    simp [RxReadSide.step, RxBuf2Data.step, h.state, h.stream, fullout_eq_false hfull]
  constructor <;> try rw [hsm]
  · rfl
  · change s.sm.offset + 1 = _
    rw [h.offset]
    rfl
  · exact h.pktPtr
  · exact (payloadLength_transferData _ (h.payloadLength rfl)).1

theorem Counting.eq_zero_iff {s : RxBuf2Data} {i : ℕ} (h : Counting n base i s) :
    s.payloadLength = 0 ↔ n ≤ i + 1 := by
  rw [← BitVec.toNat_inj, h.payloadLength]
  exact Nat.sub_eq_zero_iff_le

/-- The machine goes on, but for the end of a frame whose payload is
counted. -/
theorem Counting.step {i : ℕ} (h : Counting n base i s.sm) (hfull : ∀ k, c.full k = false)
    (hend : ¬ (packetEop s.q = true ∧ n ≤ i + 1)) : Counting n base (i + 1) (s.step c).sm := by
  have hgoes : ¬ (packetEop s.q && decide (s.sm.payloadLength = 0)) = true := by
    rwa [Bool.and_eq_true, decide_eq_true_iff, h.eq_zero_iff]
  have hsm : (s.step c).sm = s.sm.transferData (packetData s.q) false := by
    change s.sm.step _ _ _ _ _ = _
    rw [RxBuf2Data.step, h.state, fullout_eq_false hfull]
    exact if_neg hgoes
  constructor <;> try rw [hsm]
  · rfl
  · change s.sm.offset + 1 = _
    rw [h.offset]
    omega
  · exact h.pktPtr
  · rw [(payloadLength_transferData _ h.payloadLength).1]
    omega

theorem Counting.waiting {i : ℕ} (h : Counting n base i s.sm) (heof : packetEop s.q = true)
    (hn : n ≤ i + 1) :
    Waiting (base + BitVec.ofNat rxPktBufAdrsize (payload + i + 1)) (s.step c).sm := by
  have hsm : (s.step c).sm = (s.sm.finalizeUdpCheckSum (packetData s.q)).nextPacket := by
    simp [RxReadSide.step, RxBuf2Data.step, h.state, heof, h.eq_zero_iff.2 hn]
  rw [hsm, ← h.offset, ← h.pktPtr]
  exact waiting_nextPacket (s.sm.finalizeUdpCheckSum (packetData s.q))

/-! ## The return -/

/-- The machine comes back to `Idle` with the packet pointer behind the
frame, and on the way the offset stays in its range. -/
def Resynchronised (s : RxReadSide ram) (cs : ℕ → RxInput) (len : ℕ) : Prop :=
  ∃ M, FirstReturn RxReadSide.Idle RxReadSide.step s cs M ∧
    (∀ m ≤ M, (run RxReadSide.step s (upTo cs m)).sm.offset ≤ maxReservPktBuf) ∧
    (run RxReadSide.step s (upTo cs M)).sm.pktPtr =
      s.sm.pktPtr + BitVec.ofNat rxPktBufAdrsize len

/-- Where the headers are read, and every cycle after them but the last is
busy, with an offset in its range, the machine comes back in time. -/
theorem resynchronised_of_pass (h : Waiting base s.sm) (hempty : (cs 0).empty = false) {M : ℕ}
    {len : ℕ} (hM : payload + 2 < M)
    (hbusy : ∀ m, payload + 2 < m → m < M → ¬ (run RxReadSide.step s (upTo cs m)).Idle ∧
      (run RxReadSide.step s (upTo cs m)).sm.offset ≤ maxReservPktBuf)
    (hback : Waiting (base + BitVec.ofNat rxPktBufAdrsize len)
      (run RxReadSide.step s (upTo cs M)).sm) : Resynchronised s cs len := by
  have hheaders : payload + 1 ≤ maxReservPktBuf := by decide
  refine ⟨M, ⟨by omega, fun m hm hlt => ?_, hback.state⟩, fun m hm => ?_, ?_⟩
  · rcases Nat.lt_or_ge (payload + 2) m with hafter | hbefore
    · exact (hbusy m hafter hlt).1
    · exact (busy_headers h hempty hm hbefore).1
  · rcases Nat.eq_zero_or_pos m with rfl | hpos
    · exact h.offset.trans_le (Nat.zero_le _)
    · rcases Nat.lt_or_ge (payload + 2) m with hafter | hbefore
      · rcases Nat.lt_or_ge m M with hlt | hge
        · exact (hbusy m hafter hlt).2
        · obtain rfl : m = M := Nat.le_antisymm hm hge
          exact hback.offset.trans_le (Nat.zero_le _)
      · exact (busy_headers h hempty hpos hbefore).2.trans hheaders
  · rw [hback.pktPtr, h.pktPtr]

section Frame

variable (h : Waiting base s.sm) (hempty : (cs 0).empty = false)
  (hheld : ram.Holds s.buffer base 0 (endMarked frame)) (hcs : ∀ m, Spares base frame (cs m))
  (hfull : ∀ m k, (cs m).full k = false) (hlen : frame.length ≤ maxReservPktBuf)
include h hempty hcs hfull hlen

/-- From the first word of a frame for the CPU to its end. -/
theorem resynchronised_of_other {a : ℕ} (hpos : 0 < frame.length) (ha : payload + 2 < a)
    (hbefore : ∀ m, payload + 2 < m → m < a → ¬ (run RxReadSide.step s (upTo cs m)).Idle ∧
      (run RxReadSide.step s (upTo cs m)).sm.offset ≤ maxReservPktBuf)
    (hother : Other frame base 0 (run RxReadSide.step s (upTo cs a))) :
    Resynchronised s cs frame.length := by
  have hat : ∀ t < frame.length, Other frame base t (run RxReadSide.step s (upTo cs (a + t))) := by
    intro t ht
    induction t with
    | zero => exact hother
    | succ t ih =>
      rw [← Nat.add_assoc, run_upTo_succ]
      exact (ih (by omega)).step (hfull _) (hcs _) ht
  have hlast : a + frame.length = a + (frame.length - 1) + 1 := by omega
  refine resynchronised_of_pass h hempty (M := a + frame.length) (by omega) (fun m hm hlt => ?_) ?_
  · rcases Nat.lt_or_ge m a with hma | hma
    · exact hbefore m hm hma
    · obtain ⟨t, rfl⟩ := Nat.exists_eq_add_of_le hma
      have ht := hat t (by omega)
      refine ⟨?_, ?_⟩
      · rw [RxReadSide.Idle, ht.state]
        decide
      · rw [ht.offset]
        omega
  · rw [hlast, run_upTo_succ]
    exact (hat (frame.length - 1) (by omega)).waiting (by omega)

/-- The end of a frame after the claimed payload is noticed. -/
theorem resynchronised_of_counting (hheld : ram.Holds s.buffer base 0 (endMarked frame))
    (hstatus : StatusOut true n base (run RxReadSide.step s (upTo cs (payload + 3))).sm)
    (hpos : payload < frame.length) (hn : payload + n ≤ frame.length) :
    Resynchronised s cs frame.length := by
  have hbuffer := held_upTo hheld hcs
  -- word by word up to the end, where the claimed payload is used up
  have hat : ∀ t, payload + t + 1 ≤ frame.length →
      Counting n base t (run RxReadSide.step s (upTo cs (payload + 4 + t))).sm ∧
        (run RxReadSide.step s (upTo cs (payload + 4 + t))).q =
          packetWord (decide (payload + t + 1 = frame.length)) (frame.getD (payload + t) 0) := by
    intro t ht
    induction t with
    | zero =>
      rw [Nat.add_zero, run_upTo_succ]
      exact ⟨hstatus.counting (hfull _),
        q_step (hbuffer _) (hcs _) hstatus.pktPtr hstatus.offset (by omega)⟩
    | succ t ih =>
      obtain ⟨hcount, hq⟩ := ih (by omega)
      rw [← Nat.add_assoc, run_upTo_succ]
      refine ⟨hcount.step (hfull _) ?_,
        q_step (hbuffer _) (hcs _) hcount.pktPtr hcount.offset (by omega)⟩
      rw [hq, packetEop_packetWord, decide_eq_true_iff]
      omega
  obtain ⟨t₀, ht₀⟩ : ∃ t₀, frame.length = payload + t₀ + 1 :=
    ⟨frame.length - payload - 1, by omega⟩
  have hlast : frame.length + 4 = payload + 4 + t₀ + 1 := by omega
  refine resynchronised_of_pass h hempty (M := frame.length + 4) (by omega) (fun m hm hlt => ?_) ?_
  · rcases Nat.lt_or_ge m (payload + 4) with hma | hma
    · obtain rfl : m = payload + 3 := by omega
      refine ⟨?_, ?_⟩
      · rw [RxReadSide.Idle, hstatus.state]
        decide
      · rw [hstatus.offset]
        exact (by decide : payload ≤ maxReservPktBuf)
    · obtain ⟨t, rfl⟩ := Nat.exists_eq_add_of_le hma
      have hcount := (hat t (by omega)).1
      refine ⟨?_, ?_⟩
      · rw [RxReadSide.Idle, hcount.state]
        decide
      · rw [hcount.offset]
        omega
  · obtain ⟨hcount, hq⟩ := hat t₀ (by omega)
    have heof : packetEop (run RxReadSide.step s (upTo cs (payload + 4 + t₀))).q = true := by
      rw [hq, packetEop_packetWord, decide_eq_true_iff]
      omega
    rw [hlast, run_upTo_succ, ht₀]
    exact hcount.waiting heof (by omega)

omit hcs in
/-- Its end in the headers, or before all the payload they claim, is not. -/
theorem not_resynchronised
    (hstatus : StatusOut true n base (run RxReadSide.step s (upTo cs (payload + 3))).sm)
    (hn : frame.length < payload + max 1 n) : ¬ Resynchronised s cs frame.length := by
  rintro ⟨M, hM, hrange, hptr⟩
  have hnot : ∀ m, 0 < m → m ≤ payload + 3 → ¬ (run RxReadSide.step s (upTo cs m)).Idle := by
    intro m hm hle
    rcases Nat.lt_or_ge m (payload + 3) with hlt | hge
    · exact (busy_headers h hempty hm (by omega)).1
    · obtain rfl : m = payload + 3 := by omega
      rw [RxReadSide.Idle, hstatus.state]
      decide
  have hafter : payload + 3 < M := Nat.lt_of_not_le fun hle => hnot M hM.pos hle hM.back
  -- up to the return the machine counts on
  have hat : ∀ i, payload + 4 + i < M →
      Counting n base i (run RxReadSide.step s (upTo cs (payload + 4 + i))).sm := by
    intro i hi
    induction i with
    | zero =>
      rw [Nat.add_zero, run_upTo_succ]
      exact hstatus.counting (hfull _)
    | succ i ih =>
      rw [← Nat.add_assoc, run_upTo_succ]
      refine (ih (by omega)).step (hfull _) fun hend => ?_
      have hback := (ih (by omega)).waiting (c := cs (payload + 4 + i)) hend.1 hend.2
      refine hM.busy (payload + 4 + i + 1) (by omega) hi ?_
      rw [run_upTo_succ]
      exact hback.state
  rcases Nat.lt_or_ge (payload + 4) M with hlt | hge
  · obtain ⟨i, rfl⟩ : ∃ i, M = payload + 4 + i + 1 := ⟨M - payload - 5, by omega⟩
    have hcount := hat i (by omega)
    -- a return at a later end of packet leaves the pointer too far on
    by_cases hend :
        packetEop (run RxReadSide.step s (upTo cs (payload + 4 + i))).q = true ∧ n ≤ i + 1
    · have hback := hcount.waiting (c := cs (payload + 4 + i)) hend.1 hend.2
      have hsmall := hrange (payload + 4 + i) (by omega)
      have hbuffer : maxReservPktBuf < 2 ^ rxPktBufAdrsize := by decide
      rw [hcount.offset] at hsmall
      rw [run_upTo_succ, hback.pktPtr, h.pktPtr,
        RecordRing.add_ofNat_inj (by omega) (by omega)] at hptr
      omega
    · have hgoes := hcount.step (hfull (payload + 4 + i)) hend
      have hback := hM.back
      rw [run_upTo_succ, RxReadSide.Idle, hgoes.state] at hback
      cases hback
  · obtain rfl : M = payload + 4 := by omega
    have hback := hM.back
    rw [run_upTo_succ, RxReadSide.Idle, (hstatus.counting (hfull _)).state] at hback
    cases hback

/-- What the headers of a frame must be for its end to be noticed. -/
theorem resynchronised_iff_header (hpos : 0 < frame.length)
    (hheld : ram.Holds s.buffer base 0 (endMarked frame)) :
    Resynchronised s cs frame.length ↔
      ¬ HeaderOk (shownHeader s cs) ∨
      ¬ PortFound (cs (payload + 2)).ethRegs (shownHeader s cs) ∨
      payload < frame.length ∧ payload + claimedPayload (shownHeader s cs) ≤ frame.length := by
  have hread := headerRead_upTo h hempty
  have hbuffer := held_upTo hheld hcs
  have hstep : run RxReadSide.step s (upTo cs (payload + 3)) =
      (run RxReadSide.step s (upTo cs (payload + 2))).step (cs (payload + 2)) := run_upTo_succ
  -- one case for each way out of the header checks
  by_cases hok : HeaderOk (shownHeader s cs)
  · have hstatus : StatusOut (decide (PortFound (cs (payload + 2)).ethRegs (shownHeader s cs)))
        (claimedPayload (shownHeader s cs)) base
        (run RxReadSide.step s (upTo cs (payload + 3))).sm := by
      rw [hstep]
      exact hread.statusOut hok
    by_cases hport : PortFound (cs (payload + 2)).ethRegs (shownHeader s cs)
    · -- the payload is counted
      rw [decide_eq_true hport] at hstatus
      simp only [hok, hport, not_true_eq_false, false_or]
      constructor
      · intro hresync
        by_contra hbad
        exact not_resynchronised h hempty hfull hlen hstatus (by omega) hresync
      · rintro ⟨hlong, hn⟩
        exact resynchronised_of_counting h hempty hcs hfull hlen hheld hstatus hlong hn
    · -- the port is none of ours
      rw [decide_eq_false hport] at hstatus
      have hsm : ((run RxReadSide.step s (upTo cs (payload + 3))).step (cs (payload + 3))).sm =
          (run RxReadSide.step s (upTo cs (payload + 3))).sm.transferOtherData false := by
        simp [RxReadSide.step, RxBuf2Data.step, hstatus.state, hstatus.stream,
          fullout_eq_false (hfull (payload + 3))]
      have hother := other_of_offset hsm hstatus.offset hstatus.pktPtr (hbuffer _) (hcs _) hpos
      have hnext : run RxReadSide.step s (upTo cs (payload + 4)) =
          (run RxReadSide.step s (upTo cs (payload + 3))).step (cs (payload + 3)) := run_upTo_succ
      rw [← hnext] at hother
      refine iff_of_true ?_ (.inr (.inl hport))
      refine resynchronised_of_other h hempty hcs hfull hlen hpos (by omega)
        (fun m hm hlt => ?_) hother
      obtain rfl : m = payload + 3 := by omega
      refine ⟨?_, ?_⟩
      · rw [RxReadSide.Idle, hstatus.state]
        decide
      · rw [hstatus.offset]
        exact Nat.zero_le _
  · -- the headers have an error
    have hsm : ((run RxReadSide.step s (upTo cs (payload + 2))).step (cs (payload + 2))).sm =
        (run RxReadSide.step s (upTo cs (payload + 2))).sm.transferOtherData false := by
      change RxBuf2Data.step _ _ _ _ _ _ = _
      rw [RxBuf2Data.step, hread.state, fullout_eq_false (hfull (payload + 2))]
      exact if_pos (mt hread.errorVector.1 hok)
    have hother := other_of_offset hsm hread.offset hread.pktPtr (hbuffer _) (hcs _) hpos
    rw [← hstep] at hother
    refine iff_of_true ?_ (.inl hok)
    exact resynchronised_of_other h hempty hcs hfull hlen hpos (by omega) (by omega) hother

end Frame

/-- **Behind the frame**: after a frame of any kind the machine is back in
`Idle` with the pointer behind it if and only if there is an error in the
headers it saw, or they are for no port, or the frame is as long as the
payload they claim and has a word of payload at all. -/
theorem resynchronised_iff (hreach : Reachable s) (hidle : s.Idle) (hpos : 0 < frame.length)
    (hlen : frame.length ≤ maxReservPktBuf)
    (hheld : ram.Holds s.buffer s.sm.pktPtr 0 (endMarked frame)) (hempty : (cs 0).empty = false)
    (hfull : ∀ m k, (cs m).full k = false) (hcs : ∀ m, Spares s.sm.pktPtr frame (cs m)) :
    Resynchronised s cs frame.length ↔
      ¬ HeaderOk (shownHeader s cs) ∨
      ¬ PortFound (cs (payload + 2)).ethRegs (shownHeader s cs) ∨
      payload < frame.length ∧ payload + claimedPayload (shownHeader s cs) ≤ frame.length :=
  resynchronised_iff_header (hreach.waiting hidle) hempty hcs hfull hlen hpos hheld

/-- The receive side after a reset, a frame in its buffer. -/
def sampleReadSide (frame : List Word) : RxReadSide (array rxPktBufAdrsize 17) :=
  RxReadSide.reset {
    sm := {
      state := .idle, offset := 0, pktPtr := 0, errorVector := 0, wrReqIntern := false
      sodIntern := false, eodOut := false, streamIntern := defaultStream, fragID := 0
      moreFrags := false, fragOff := 0, udpCheckSumErr := false
      packetHeaderRegFile := Vector.replicate _ 0, ipLength := 0, payloadLength := 0
      ipCheckSum := 0, udpCheckSum := 0, idx := 0 }
    buffer := (fun a => (endMarked frame).getD a.toNat 0, 0) }

/-- Cycles without writes, for a machine with some ports. -/
def sampleReadCycle : RxInput where
  ethRegs := {
    macMod := 0, macSrv := 0, ipMod := 0, ipSrv := 0, udpSrvPrt := fun _ => 0
    udpModPrt := fun k => 0x5000 + BitVec.ofNat 16 k }

/-- The headers of a frame that claims two words of payload. -/
def sampleHeader : List Word :=
  [0x0800, 0x3000, 0xC0A0, 0x0800, 0x3000, 0xC0A1, 0x0800, 0x4500, 0x0020, 0, 0, 0x8011, 0xB979,
    0xC0A8, 0x0001, 0xC0A8, 0x0002, 0x4000, 0x5001, 0x000C, 0]

theorem holds_sampleReadSide {frame : List Word} (h : frame.length ≤ 2 ^ rxPktBufAdrsize) :
    (array rxPktBufAdrsize 17).Holds (sampleReadSide frame).buffer
      (sampleReadSide frame).sm.pktPtr 0 (endMarked frame) :=
  holds_getD (by rwa [length_endMarked]) 0

theorem reachable_sampleReadSide (frame : List Word) : Reachable (sampleReadSide frame) :=
  ⟨_, [], rfl⟩

theorem spares_sampleReadCycle : Spares base frame sampleReadCycle :=
  fun hwe => by cases hwe

/-- A frame with both words of its payload. -/
theorem resynchronised_sample :
    Resynchronised (sampleReadSide (sampleHeader ++ [0xA1, 0xA2])) (fun _ => sampleReadCycle) 23 :=
  (resynchronised_iff (reachable_sampleReadSide _) rfl (by decide) (by decide)
    (holds_sampleReadSide (by decide)) rfl (fun _ _ => rfl) fun _ => spares_sampleReadCycle).2
    (by decide +kernel)

/-- A frame that ends after the first one. -/
theorem not_resynchronised_sample :
    ¬ Resynchronised (sampleReadSide (sampleHeader ++ [0xA1])) (fun _ => sampleReadCycle) 22 := by
  have hheader : Resynchronised (sampleReadSide (sampleHeader ++ [0xA1]))
      (fun _ => sampleReadCycle) (sampleHeader ++ [0xA1]).length ↔ _ :=
    resynchronised_iff_header ((reachable_sampleReadSide _).waiting rfl) rfl
      (fun _ => spares_sampleReadCycle) (fun _ _ => rfl) (by decide) (by decide)
      (holds_sampleReadSide (by decide))
  refine mt hheader.1 ?_
  decide +kernel

end Ipmux

end WrCalibration
