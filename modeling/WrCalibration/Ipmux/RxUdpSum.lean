import WrCalibration.Ipmux.RxStall

/-!
# The UDP checksum on the receive side

What the machine sums up of a frame, and what it should: the address is
one cycle ahead of the word that is shown, so in `StatusOut`, where the
first word of the payload is to be added, the buffer still shows the first
word of the frame. Each word of the payload is added a cycle later, and
the last one at the end of the frame, but not if padding comes between.
-/

namespace WrCalibration

namespace Ipmux

open Clocked GenericDpram RxBuf2Data

variable {ram : GenericDpram rxPktBufAdrsize 17} {frame : List Word} {n : ℕ} {port : Word}
  {base : BitVec rxPktBufAdrsize} {s : RxReadSide ram} {c : RxInput} {cs : ℕ → RxInput}
  {j : Fin numUdpPrts}

/-! ## The words of the sum -/

/-- The words of the pseudo header: addresses, protocol and length. -/
def pseudoWords (frame : List Word) : List Word :=
  [frame.getD (ipHdr + ipIdxIpSrc) 0, frame.getD (ipHdr + ipIdxIpSrc + 1) 0,
    frame.getD (ipHdr + ipIdxIpDst) 0, frame.getD (ipHdr + ipIdxIpDst + 1) 0,
    ((frame.getD (ipHdr + ipIdxTtlProt) 0).extractLsb' 0 8).setWidth 16,
    frame.getD (udpHdr + udpIdxLen) 0]

/-- The words before the payload that go into the sum. -/
def headerWords (frame : List Word) : List Word :=
  part udpHdr payload frame ++ pseudoWords frame

/-- The sum of pseudo header, UDP header and payload. -/
def udpSum (frame : List Word) (n : ℕ) : ℕ :=
  ((headerWords frame ++ part payload (payload + n) frame).map BitVec.toNat).sum

/-- The words that the machine sums up, `k` of them from the payload. -/
def summedWords (frame : List Word) (k : ℕ) : List Word :=
  headerWords frame ++ [frame.getD macHdr 0] ++ part payload (payload + k) frame

/-- The number of words of the payload it sums up. -/
def summedCount (frame : List Word) (n : ℕ) : ℕ := if frame.length = payload + n then n else n - 1

/-- The word that is missing: with padding the last one of the payload. -/
def missingWord (frame : List Word) (n : ℕ) : ℕ :=
  if frame.length = payload + n then 0 else (frame.getD (payload + n - 1) 0).toNat

theorem part_succ {lo hi : ℕ} (hlo : lo ≤ hi) (hhi : hi < frame.length) :
    part lo (hi + 1) frame = part lo hi frame ++ [frame.getD hi 0] := by
  rw [part, part, List.take_succ_eq_append_getElem hhi, List.drop_append_of_le_length (by
    rw [List.length_take]
    omega), List.getD_eq_getElem _ _ hhi]

theorem summedWords_succ {k : ℕ} (hk : payload + k < frame.length) :
    sum32 (summedWords frame (k + 1)) =
      sum32 (summedWords frame k) + wide (frame.getD (payload + k) 0) := by
  rw [summedWords, ← Nat.add_assoc, part_succ (Nat.le_add_right _ _) hk, ← List.append_assoc,
    sum32_append, sum32_singleton, summedWords]

/-- The words of the pseudo header, as the machine adds them. -/
theorem sum32_pseudoWords (u : BitVec 32) : u + wide (frame.getD (ipHdr + ipIdxIpSrc) 0) +
    wide (frame.getD (ipHdr + ipIdxIpSrc + 1) 0) + wide (frame.getD (ipHdr + ipIdxIpDst) 0) +
    wide (frame.getD (ipHdr + ipIdxIpDst + 1) 0) +
    ((frame.getD (ipHdr + ipIdxTtlProt) 0).extractLsb' 0 8).setWidth 32 +
    wide (frame.getD (udpHdr + udpIdxLen) 0) = u + sum32 (pseudoWords frame) := by
  have hprot : ∀ x : BitVec 8, wide (x.setWidth 16) = x.setWidth 32 := by
    intro x
    have hx := x.isLt
    rw [← BitVec.toNat_inj, toNat_wide, BitVec.toNat_setWidth, BitVec.toNat_setWidth]
    omega
  simp only [sum32, pseudoWords, List.map_cons, List.map_nil, List.sum_cons, List.sum_nil, hprot,
    add_zero, add_assoc]

/-! ## The sum, cycle by cycle -/

/-- After the headers the sum is that of the words before the payload, and
the buffer shows the first word of the frame. -/
theorem picked_sum (h : Waiting base s.sm) (hzero : s.sm.udpCheckSum = 0)
    (hheld : ram.Holds s.buffer base 0 (endMarked frame)) (hframe : UdpFrame frame n port)
    (hempty : (cs 0).empty = false) (hcs : ∀ m, Spares base frame (cs m)) :
    (run RxReadSide.step s (upTo cs (payload + 3))).sm.udpCheckSum = sum32 (headerWords frame) ∧
      packetData (run RxReadSide.step s (upTo cs (payload + 3))).q = frame.getD macHdr 0 := by
  have hlen := hframe.length
  have hpos := hframe.pos
  have hread := headerRead_upTo h hempty
  have hcnt : headerCnt = payload := by decide
  have hshown : shownHeader s cs = frame.take payload := by
    rw [shownHeader_eq h hempty hheld hcs (by omega), hcnt]
  have hword : ∀ k < payload, (frame.take payload).getD k 0 = frame.getD k 0 := by
    intro k hk
    rw [List.getD_eq_getElem?_getD, List.getElem?_take_of_lt hk, List.getD_eq_getElem?_getD]
  have hok : HeaderOk (shownHeader s cs) := by
    rw [hshown, HeaderOk, hword _ (by decide), hword _ (by decide), hword _ (by decide),
      part_take (by decide)]
    exact hframe.headerOk
  have hsm : ((run RxReadSide.step s (upTo cs (payload + 2))).step (cs (payload + 2))).sm =
      (run RxReadSide.step s (upTo cs (payload + 2))).sm.pickStream (cs (payload + 2)).ethRegs := by
    simp [RxReadSide.step, RxBuf2Data.step, hread.state, hread.errorVector.2 hok]
  -- the pseudo header is summed up from the registers that hold the headers
  have hheader : ∀ k < payload,
      (run RxReadSide.step s (upTo cs (payload + 2))).sm.header k = frame.getD k 0 := by
    intro k hk
    rw [hread.header k hk, hshown, hword k hk]
  have hq := q_step (held_upTo hheld hcs _) (hcs (payload + 2)) hread.pktPtr hread.offset (by omega)
  rw [run_upTo_succ]
  refine ⟨?_, by rw [hq, packetData_packetWord]; rfl⟩
  rw [hsm]
  simp only [pickStream]
  rw [hheader _ (by decide), hheader _ (by decide), hheader _ (by decide), hheader _ (by decide),
    hheader _ (by decide), hheader _ (by decide), hread.udpCheckSum, hshown, hzero,
    part_take (by decide), zero_add, headerWords, sum32_append, sum32_pseudoWords]

/-- One cycle of the transfer: a word is added as long as another one of the
payload is to come. -/
theorem udpCheckSum_transferData {m : ℕ} {s : RxBuf2Data} (din : Word)
    (h : s.payloadLength.toNat = m) : (s.transferData din false).udpCheckSum =
      if 0 < m then s.udpCheckSum + wide din else s.udpCheckSum := by
  rw [transferData, if_neg (by decide)]
  simp only [h, decide_eq_true_eq]

/-- **In the payload** all words are summed up that were followed by
another one. -/
theorem transferring_sum (h : Waiting base s.sm) (hzero : s.sm.udpCheckSum = 0)
    (hheld : ram.Holds s.buffer base 0 (endMarked frame)) (hframe : UdpFrame frame n port)
    (hempty : (cs 0).empty = false)
    (hport : ∀ k, (cs (payload + 2)).ethRegs.udpModPrt k = port ↔ k = j)
    (hcs : ∀ m, Spares base frame (cs m)) (hfull : ∀ m, (cs m).full j.castSucc = false) {t : ℕ}
    (ht : payload + t + 1 ≤ frame.length) :
    Transferring frame n base j t (run RxReadSide.step s (upTo cs (payload + 4 + t))) ∧
      (run RxReadSide.step s (upTo cs (payload + 4 + t))).sm.udpCheckSum =
        sum32 (summedWords frame (min t (n - 1))) := by
  have hpos := hframe.pos
  induction t with
  | zero =>
    have hpicked := picked_upTo h hheld hframe hempty hport hcs
    obtain ⟨hsum, hq⟩ := picked_sum h hzero hheld hframe hempty hcs
    rw [Nat.add_zero, run_upTo_succ]
    refine ⟨hpicked.transferring (hfull _) (by omega) (hcs _), ?_⟩
    rw [hpicked.step_sm, hfull, udpCheckSum_transferData _ hpicked.payloadLength, if_pos hpos, hsum,
      hq, Nat.zero_min, summedWords, sum32_append, sum32_append, sum32_singleton]
    have hnone : part payload (payload + 0) frame = [] := by
      rw [part, List.drop_eq_nil_iff, List.length_take]
      omega
    rw [hnone, sum32_nil, add_zero]
  | succ t ih =>
    obtain ⟨hat, hsum⟩ := ih (by omega)
    rw [← Nat.add_assoc, run_upTo_succ]
    refine ⟨hat.step (hfull _) (by omega) (hcs _), ?_⟩
    rw [hat.step_sm (by omega), hfull, udpCheckSum_transferData _ hat.payloadLength, hsum, hat.q,
      packetData_packetWord]
    -- behind the payload, or at its last word, nothing more is added
    by_cases hmore : 0 < n - (t + 1)
    · rw [if_pos hmore, Nat.min_eq_left (by omega), Nat.min_eq_left (by omega),
        summedWords_succ (by omega)]
    · rw [if_neg hmore, Nat.min_eq_right (by omega), Nat.min_eq_right (by omega)]

/-- The test at the end of a frame, and its result in `Idle`. -/
theorem udpCheckSumErr_nextPacket (s : RxBuf2Data) (din : Word) :
    (s.finalizeUdpCheckSum din).nextPacket.udpCheckSumErr =
      decide (lower (rxFold (if s.wrReqIntern then s.udpCheckSum + wide din
        else s.udpCheckSum)) ≠ 0) := rfl

/-- **At the end of the frame** the last word of the payload is added, but
not behind padding. -/
theorem udpCheckSumErr_eq (h : Waiting base s.sm) (hzero : s.sm.udpCheckSum = 0)
    (hheld : ram.Holds s.buffer base 0 (endMarked frame)) (hframe : UdpFrame frame n port)
    (hempty : (cs 0).empty = false)
    (hport : ∀ k, (cs (payload + 2)).ethRegs.udpModPrt k = port ↔ k = j)
    (hcs : ∀ m, Spares base frame (cs m)) (hfull : ∀ m, (cs m).full j.castSucc = false) :
    FirstReturn RxReadSide.Idle RxReadSide.step s cs (frame.length + 4) ∧
      (run RxReadSide.step s (upTo cs (frame.length + 3))).sm.offset = frame.length ∧
      (∀ m ≤ frame.length + 4,
        (run RxReadSide.step s (upTo cs m)).sm.offset ≤ frame.length) ∧
      (run RxReadSide.step s (upTo cs (frame.length + 4))).sm.udpCheckSumErr =
        decide (lower (rxFold (sum32 (summedWords frame (summedCount frame n)))) ≠ 0) := by
  have hpos := hframe.pos
  have hlen := hframe.length
  have hat := fun t => transferring_sum h hzero hheld hframe hempty hport hcs hfull (t := t)
  obtain ⟨t, ht⟩ : ∃ t, frame.length = payload + t + 1 := ⟨frame.length - payload - 1, by omega⟩
  obtain ⟨hlast, hsum⟩ := hat t (by omega)
  have hcycle : frame.length + 4 = payload + 4 + t + 1 := by omega
  have hwaiting : Waiting (base + BitVec.ofNat rxPktBufAdrsize frame.length)
      (run RxReadSide.step s (upTo cs (frame.length + 4))).sm := by
    rw [hcycle, run_upTo_succ]
    exact hlast.waiting ht.symm (by omega)
  refine ⟨⟨by omega, fun m hm hlt => ?_, hwaiting.state⟩, ?_, fun m hm => ?_, ?_⟩
  · rcases Nat.lt_or_ge m (payload + 4) with hheader | hbody
    · exact (atCycle_upTo h hheld hframe hempty hport hcs hm (by omega)).state_ne hlt
    · obtain ⟨k, rfl⟩ := Nat.exists_eq_add_of_le hbody
      rw [RxReadSide.Idle, (hat k (by omega)).1.state]
      decide
  · rw [show frame.length + 3 = payload + 4 + t by omega, hlast.offset, ht]
  · rcases Nat.lt_or_ge m (payload + 4) with hheader | hbody
    · have hoffset := offset_headers h hheld hframe hempty hport hcs (m := m) (by omega)
      omega
    · obtain ⟨k, rfl⟩ := Nat.exists_eq_add_of_le hbody
      rcases Nat.eq_or_lt_of_le hm with heq | hlt
      · rw [heq, hwaiting.offset]
        exact Nat.zero_le _
      · rw [(hat k (by omega)).1.offset]
        omega
  · rw [hcycle, run_upTo_succ, hlast.step_sm_last ht.symm (by omega), udpCheckSumErr_nextPacket,
      hlast.wrReqIntern, hsum, hlast.q, packetData_packetWord, summedCount]
    by_cases hpad : frame.length = payload + n
    · obtain rfl : n = t + 1 := by omega
      rw [if_pos (by simp), if_pos hpad, Nat.add_sub_cancel, Nat.min_self,
        summedWords_succ (by omega)]
    · rw [if_neg (by simp; omega), if_neg hpad, Nat.min_eq_right (by omega)]

/-! ## What the sum should be -/

/-- The machine sums up the first word of the frame in place of the word that
is missing. -/
theorem sum_summedWords (hpos : 0 < n) (hlen : payload + n ≤ frame.length) :
    ((summedWords frame (summedCount frame n)).map BitVec.toNat).sum + missingWord frame n =
      udpSum frame n + (frame.getD macHdr 0).toNat := by
  rw [summedWords, udpSum, summedCount, missingWord]
  by_cases hpad : frame.length = payload + n
  · rw [if_pos hpad, if_pos hpad]
    simp only [List.map_append, List.sum_append, List.map_singleton, List.sum_singleton]
    omega
  · obtain ⟨k, rfl⟩ : ∃ k, n = k + 1 := ⟨n - 1, by omega⟩
    have hlast : part payload (payload + k + 1) frame = _ :=
      part_succ (Nat.le_add_right payload k) (by omega)
    rw [if_neg hpad, if_neg hpad, ← Nat.add_assoc, hlast, Nat.add_sub_cancel, Nat.add_sub_cancel]
    simp only [List.map_append, List.sum_append, List.map_singleton, List.sum_singleton]
    omega

/-- The protocol alone makes every sum positive. -/
theorem headerWords_pos (hframe : UdpFrame frame n port) :
    0 < ((headerWords frame).map BitVec.toNat).sum := by
  have hprot : (ipProtUdp.setWidth 16).toNat = 17 := rfl
  rw [headerWords, pseudoWords, hframe.prot]
  simp only [List.map_append, List.sum_append, List.map_cons, List.sum_cons, hprot]
  omega

theorem length_summedWords_le (hframe : UdpFrame frame n port) :
    (summedWords frame (summedCount frame n)).length ≤ 32768 := by
  have hip := (frame.getD (ipHdr + ipIdxLen) 0).isLt
  have hcounts : ipHdrCnt = 10 ∧ udpHdrCnt = 4 ∧ udpHdr = 17 ∧ payload = 21 := ⟨rfl, rfl, rfl, rfl⟩
  have hcount : summedCount frame n ≤ n := by
    rw [summedCount]
    split <;> omega
  rw [hframe.ipLength] at hip
  simp only [summedWords, headerWords, pseudoWords, part, List.length_append, List.length_drop,
    List.length_take, List.length_cons, List.length_nil]
  omega

/-- **The test** as the machine makes it. -/
theorem lower_rxFold_summedWords (hframe : UdpFrame frame n port) :
    lower (rxFold (sum32 (summedWords frame (summedCount frame n)))) = 0 ↔
      65535 ∣ ((summedWords frame (summedCount frame n)).map BitVec.toNat).sum := by
  have hcount := length_summedWords_le hframe
  obtain ⟨hsum, hle⟩ := toNat_sum32 (summedWords frame (summedCount frame n)) (by omega)
  have hpos := headerWords_pos hframe
  have hposall : 0 < ((summedWords frame (summedCount frame n)).map BitVec.toNat).sum := by
    rw [summedWords]
    simp only [List.map_append, List.sum_append]
    omega
  rw [← hsum] at hposall hle ⊢
  exact lower_rxFold_eq_zero_iff_dvd hposall (by omega)

/-- The checksum error of a frame is signalled when it should be, and on the way
the offset stays in its range. -/
def ChecksumVerified (s : RxReadSide ram) (cs : ℕ → RxInput) (frame : List Word) (n : ℕ) : Prop :=
  ∃ M, FirstReturn RxReadSide.Idle RxReadSide.step s cs M ∧
    (∀ m ≤ M, (run RxReadSide.step s (upTo cs m)).sm.offset ≤ maxReservPktBuf) ∧
    ((run RxReadSide.step s (upTo cs M)).sm.udpCheckSumErr = true ↔
      ¬ (0 < udpSum frame n ∧ 65535 ∣ udpSum frame n))

/-- A sum and another one that differs by two words are both a multiple of
65535 or both none. -/
theorem dvd_iff_dvd_iff {a b x y : ℕ} (h : b + y = a + x) : (65535 ∣ b ↔ 65535 ∣ a) ↔
    x ≡ y [MOD 65535] ∨ ¬ 65535 ∣ a ∧ ¬ 65535 ∣ a + x - y := by
  have hb : a + x - y = b := by omega
  rw [hb, Nat.ModEq]
  omega

theorem checksumVerified_iff_of_waiting (h : Waiting s.sm.pktPtr s.sm)
    (hzero : s.sm.udpCheckSum = 0)
    (hheld : ram.Holds s.buffer s.sm.pktPtr 0 (endMarked frame)) (hframe : UdpFrame frame n port)
    (hempty : (cs 0).empty = false)
    (hport : ∀ k, (cs (payload + 2)).ethRegs.udpModPrt k = port ↔ k = j)
    (hcs : ∀ m, Spares s.sm.pktPtr frame (cs m))
    (hfull : ∀ m, (cs m).full j.castSucc = false) :
    ChecksumVerified s cs frame n ↔ frame.length ≤ maxReservPktBuf ∧
      ((frame.getD macHdr 0).toNat ≡ missingWord frame n [MOD 65535] ∨
        ¬ 65535 ∣ udpSum frame n ∧
        ¬ 65535 ∣ udpSum frame n + (frame.getD macHdr 0).toNat - missingWord frame n) := by
  obtain ⟨hback, hoffset, hoffsets, herr⟩ :=
    udpCheckSumErr_eq h hzero hheld hframe hempty hport hcs hfull
  have hsum := sum_summedWords hframe.pos hframe.length
  have hpos : 0 < udpSum frame n := by
    have hheader := headerWords_pos hframe
    rw [udpSum, List.map_append, List.sum_append]
    omega
  rw [← dvd_iff_dvd_iff hsum]
  have hverified : ChecksumVerified s cs frame n ↔ frame.length ≤ maxReservPktBuf ∧
      ((run RxReadSide.step s (upTo cs (frame.length + 4))).sm.udpCheckSumErr = true ↔
        ¬ (0 < udpSum frame n ∧ 65535 ∣ udpSum frame n)) := by
    constructor
    · rintro ⟨M, hM, hrange, hcheck⟩
      obtain rfl := hM.unique hback
      have hlast := hrange (frame.length + 3) (Nat.le_succ _)
      exact ⟨hoffset.symm.trans_le hlast, hcheck⟩
    · rintro ⟨hrange, hcheck⟩
      exact ⟨_, hback, fun m hm => (hoffsets m hm).trans hrange, hcheck⟩
  rw [hverified, herr, decide_eq_true_iff, not_iff_not]
  simp only [hpos, true_and]
  exact and_congr_right fun _ => iff_congr (lower_rxFold_summedWords hframe) Iff.rfl

/-- **The checksum of a frame**: it is tested as it should be if and only if the
frame is no longer than the offset can count, and its first word makes up for the
word that is missing, or the sum would fail the test with and without the
difference. -/
theorem checksumVerified_iff (hreach : Reachable s) (hidle : s.Idle)
    (hheld : ram.Holds s.buffer s.sm.pktPtr 0 (endMarked frame)) (hframe : UdpFrame frame n port)
    (hempty : (cs 0).empty = false)
    (hport : ∀ k, (cs (payload + 2)).ethRegs.udpModPrt k = port ↔ k = j)
    (hcs : ∀ m, Spares s.sm.pktPtr frame (cs m))
    (hfull : ∀ m, (cs m).full j.castSucc = false) :
    ChecksumVerified s cs frame n ↔ frame.length ≤ maxReservPktBuf ∧
      ((frame.getD macHdr 0).toNat ≡ missingWord frame n [MOD 65535] ∨
        ¬ 65535 ∣ udpSum frame n ∧
        ¬ 65535 ∣ udpSum frame n + (frame.getD macHdr 0).toNat - missingWord frame n) := by
  obtain ⟨s', hs'⟩ := hreach.exists_initialise hidle
  have hzero : s.sm.udpCheckSum = 0 := by
    rw [hs']
    rfl
  exact checksumVerified_iff_of_waiting (hreach.waiting hidle) hzero hheld hframe hempty hport hcs
    hfull

/-- A frame without a checksum. -/
theorem checksumVerified_sample :
    ChecksumVerified (sampleReadSide (sampleUdp [])) (fun _ => sampleReadCycle) (sampleUdp []) 2 :=
  (checksumVerified_iff (j := 1) (reachable_sampleReadSide _) rfl
    (holds_sampleReadSide (by decide)) (udpFrame_sampleUdp []) rfl (by decide)
    (fun _ => spares_sampleReadCycle) fun _ => rfl).2 (by decide)

/-- The same frame with its checksum. -/
def sampleChecked : List Word := (sampleUdp []).set 20 0xED3D

theorem udpFrame_sampleChecked : UdpFrame sampleChecked 2 0x5001 :=
  ⟨by decide, by decide, rfl, by decide, rfl, rfl, rfl, rfl⟩

/-- The machine finds an error in it: it adds the first word of the frame. -/
theorem not_checksumVerified_sample :
    ¬ ChecksumVerified (sampleReadSide sampleChecked) (fun _ => sampleReadCycle) sampleChecked
      2 := by
  have hiff : ChecksumVerified (sampleReadSide sampleChecked) (fun _ => sampleReadCycle)
      sampleChecked 2 ↔ _ :=
    checksumVerified_iff_of_waiting (j := 1) ((reachable_sampleReadSide _).waiting rfl) rfl
      (holds_sampleReadSide (by decide)) udpFrame_sampleChecked rfl (by decide)
      (fun _ => spares_sampleReadCycle) fun _ => rfl
  refine mt hiff.1 ?_
  decide

end Ipmux

end WrCalibration
