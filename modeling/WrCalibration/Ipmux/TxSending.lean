import WrCalibration.Ipmux.TxReader

/-!
# What the MAC takes in every run

A run of the reader that is fed serves its packets (`Fed.serving`): they
go out in their order, word by word, and none is lost or doubled by a
stall. A MAC that stalls for ever stops the reader, and so does one that
stalls whenever a word is shown again; one that is free in two cycles
running, again and again, takes every packet (`Fed.sends_all`).
-/

namespace WrCalibration

namespace Ipmux

open Clocked GenericDpram

variable {ram : GenericDpram txPktBufAdrsize 17}

/-- **A free MAC**: again and again it does not stall in two cycles, one
right after the other. -/
def FreeMac (stall : ℕ → Bool) : Prop :=
  ∀ m, ∃ k, m ≤ k ∧ stall k = false ∧ stall (k + 1) = false

namespace TxReadSide

section Forever

variable {wrf : WrFabric} {buffer : ram.State} {base : BitVec txPktBufAdrsize}
  {ps : List TxPacket} {c : ℕ → TxReadInput} {m m' : ℕ}

/-- The packets that are committed in the first cycles of a run, behind
those that were in the buffer. -/
def committed (ps : List TxPacket) (c : ℕ → TxReadInput) (m : ℕ) : List TxPacket :=
  ps ++ (upTo c m).filterMap TxReadInput.commit

/-- The state after some cycles. -/
def after (buffer : ram.State) (base : BitVec txPktBufAdrsize) (ps : List TxPacket)
    (c : ℕ → TxReadInput) (m : ℕ) : TxReadSide ram := run step (start buffer base ps) (upTo c m)

/-- The cycles themselves. -/
def cycles (buffer : ram.State) (base : BitVec txPktBufAdrsize) (ps : List TxPacket)
    (c : ℕ → TxReadInput) (m : ℕ) : List (TxReadSide ram × TxReadInput) :=
  trace step (start buffer base ps) (upTo c m)

/-- **A run that is fed**: packets in the buffer, and a write side that
keeps its promises. -/
structure Fed (buffer : ram.State) (base : BitVec txPktBufAdrsize) (ps : List TxPacket)
    (c : ℕ → TxReadInput) : Prop where
  held : ram.Holds buffer base 0 (packetWords ps)
  room : occupied ps < 2 ^ txPktBufAdrsize
  supplied : ∀ m, Supplied (after buffer base ps c m, c m)

theorem committed_succ : committed ps c (m + 1) = committed ps c m ++ (c m).commit.toList := by
  rw [committed, upTo_succ, List.filterMap_append, ← List.append_assoc, committed]
  cases hcommit : (c m).commit <;> simp [hcommit]

theorem after_succ : after buffer base ps c (m + 1) = (after buffer base ps c m).step (c m) :=
  run_upTo_succ

theorem cycles_succ : cycles buffer base ps c (m + 1) =
    cycles buffer base ps c m ++ [(after buffer base ps c m, c m)] := trace_upTo_succ

/-- **Every run serves its packets.** -/
theorem Fed.serving (hfed : Fed buffer base ps c) (wrf : WrFabric) (m : ℕ) :
    ∃ sent, Serving wrf base (committed ps c m) sent (after buffer base ps c m)
      (cycles buffer base ps c m) := by
  induction m with
  | zero =>
    have hnone : committed ps c 0 = ps := List.append_nil ps
    rw [hnone]
    exact ⟨[], serving_start hfed.held hfed.room⟩
  | succ m ih =>
    obtain ⟨sent, h⟩ := ih
    rw [committed_succ, after_succ, cycles_succ]
    exact h.step (hfed.supplied m)

theorem committed_mono (hm : m ≤ m') : committed ps c m <+: committed ps c m' := by
  induction m', hm using Nat.le_induction with
  | base => exact List.prefix_refl _
  | succ m' _ ih =>
    rw [committed_succ]
    exact ih.trans (List.prefix_append _ _)

theorem transfers_mono (hm : m ≤ m') : transfers wrf (cycles buffer base ps c m) <+:
    transfers wrf (cycles buffer base ps c m') := by
  induction m', hm using Nat.le_induction with
  | base => exact List.prefix_refl _
  | succ m' _ ih =>
    rw [cycles_succ, transfers_concat]
    exact ih.trans (List.prefix_append _ _)

/-! ### Progress -/

/-- A word that is shown and not taken is stalled. -/
theorem stall_of_transfer {s : TxReadSide ram} {i : TxReadInput} (h : s.mac.Driven)
    (hs : s.mac.state = .wrfStatus ∨ s.mac.state = .frame)
    (hnone : (srcO wrf (s, i)).transfer i.stall = none) : i.stall = true := by
  by_contra hstall
  rw [Bool.not_eq_true] at hstall
  have hstb : (srcO wrf (s, i)).stb = true := by
    have hsame : (srcO wrf (s, i)).stb = s.mac.stb := rfl
    rw [hsame, h.stb, decide_eq_true hs]
  rw [SrcOutput.transfer, hstb, hstall] at hnone
  cases hnone

section Quiet

variable (hfed : Fed buffer base ps c) (hpending : (after buffer base ps c m).pending ≠ [])
  (hnone : ∀ k, m ≤ k →
    (srcO wrf (after buffer base ps c k, c k)).transfer (c k).stall = none)

include hfed hnone

/-- Where nothing is taken any more, every word that is shown is stalled. -/
theorem quiet_stall {k : ℕ} (hk : m ≤ k)
    (hs : (after buffer base ps c k).mac.state = .wrfStatus ∨
      (after buffer base ps c k).mac.state = .frame) : (c k).stall = true := by
  obtain ⟨_, h⟩ := hfed.serving wrf k
  exact stall_of_transfer h.driven hs (hnone k hk)

/-- The status word waits. -/
theorem quiet_status {k k' : ℕ} (hk : m ≤ k)
    (hs : (after buffer base ps c k).mac.state = .wrfStatus) (hk' : k ≤ k') :
    (after buffer base ps c k').mac.state = .wrfStatus := by
  induction k', hk' using Nat.le_induction with
  | base => exact hs
  | succ k' hk' ih =>
    have hstall := quiet_stall hfed hnone (hk.trans hk') (Or.inl ih)
    rw [after_succ]
    simp [step, macNext, TxPkt2Mac.step, ih, hstall]

include hpending

/-- No packet goes. -/
theorem quiet_pending {k : ℕ} (hk : m ≤ k) : (after buffer base ps c k).pending ≠ [] := by
  induction k, hk using Nat.le_induction with
  | base => exact hpending
  | succ k hk ih =>
    have hfinishes : (after buffer base ps c k).finishes (c k) = false := by
      refine decide_eq_false fun hboth => ?_
      obtain ⟨hs, hstall, -⟩ := TxPkt2Mac.endCycle_iff.1 hboth
      rw [quiet_stall hfed hnone hk (Or.inr hs)] at hstall
      cases hstall
    rw [after_succ, step, left, hfinishes]
    exact List.append_ne_nil_of_left_ne_nil ih _

/-- So the reader does not wait for packets. -/
theorem quiet_not_idle (hfree : FreeMac fun m => (c m).stall) {k : ℕ} (hk : m ≤ k) :
    (after buffer base ps c k).mac.state ≠ .idle := by
  intro hs
  obtain ⟨_, h⟩ := hfed.serving wrf k
  have hempty : (after buffer base ps c k).empty = false := Bool.eq_false_iff.2 fun hempty =>
    quiet_pending hfed hpending hnone hk (h.sound.laid.empty.1 hempty)
  have hstatus : (after buffer base ps c (k + 1)).mac.state = .wrfStatus := by
    rw [after_succ]
    simp [step, macNext, TxPkt2Mac.step, hs, hempty]
  obtain ⟨k', hk', (hstall : (c k').stall = false), -⟩ := hfree (k + 1)
  have hlater := quiet_status hfed hnone (hk.trans (Nat.le_succ k)) hstatus hk'
  rw [quiet_stall hfed hnone (by omega) (Or.inl hlater)] at hstall
  cases hstall

omit hnone in
/-- **The MAC takes another word** as long as a packet is left. -/
theorem exists_transfer (wrf : WrFabric) (hfree : FreeMac fun m => (c m).stall) : ∃ k, m ≤ k ∧
    (srcO wrf (after buffer base ps c k, c k)).transfer (c k).stall ≠ none := by
  by_contra hnever
  push Not at hnever
  obtain ⟨k, hk, (hstall : (c k).stall = false), (hstall' : (c (k + 1)).stall = false)⟩ :=
    hfree m
  cases hs : (after buffer base ps c k).mac.state with
  | idle => exact quiet_not_idle hfed hpending hnever hfree hk hs
  | wrfStatus =>
    rw [quiet_stall hfed hnever hk (Or.inl hs)] at hstall
    cases hstall
  | frame =>
    rw [quiet_stall hfed hnever hk (Or.inr hs)] at hstall
    cases hstall
  | stall =>
    -- the word is shown again in the second cycle
    have hframe : (after buffer base ps c (k + 1)).mac.state = .frame := by
      rw [after_succ]
      simp [step, macNext, TxPkt2Mac.step, TxPkt2Mac.nextWord, hs, hstall]
    rw [quiet_stall hfed hnever (by omega) (Or.inr hframe)] at hstall'
    cases hstall'
  | endCycle =>
    have hidle : (after buffer base ps c (k + 1)).mac.state = .idle := by
      rw [after_succ]
      simp [step, macNext, TxPkt2Mac.step, hs, hstall]
    exact quiet_not_idle hfed hpending hnever hfree (hk.trans (Nat.le_succ k)) hidle

end Quiet

/-- What has gone is the beginning of the frames of the packets. -/
theorem flatten_of_framesOf {sent rest : List TxPacket} {bs : List (List FabricWord)}
    (h : FramesOf wrf sent rest bs) :
    bs.flatten <+: (sent ++ rest).flatMap (TxPacket.frame wrf) := by
  rw [List.flatMap_append]
  rcases h with rfl | ⟨p, hp, w, hw, -, rfl⟩
  · rw [← List.flatMap_def]
    exact List.prefix_append _ _
  · obtain ⟨rest', rfl⟩ : ∃ rest', rest = p :: rest' := ⟨_, (List.cons_head?_tail hp).symm⟩
    rw [List.flatten_append, List.flatten_singleton, ← List.flatMap_def, List.flatMap_cons,
      List.prefix_append_right_inj]
    exact hw.trans (List.prefix_append _ _)

/-- **Every packet is sent** when the MAC is free again and again. -/
theorem Fed.sends_all (hfed : Fed buffer base ps c) (wrf : WrFabric)
    (hfree : FreeMac fun m => (c m).stall) (m : ℕ) :
    ∃ k, m ≤ k ∧ (committed ps c m).flatMap (TxPacket.frame wrf) <+:
      transfers wrf (cycles buffer base ps c k) := by
  have hmono : ∀ {k}, m ≤ k → (committed ps c m).flatMap (TxPacket.frame wrf) <+:
      (committed ps c k).flatMap (TxPacket.frame wrf) := fun hk =>
    (committed_mono hk).flatMap (TxPacket.frame wrf)
  have hgrow : ∀ k, m ≤ k → (transfers wrf (cycles buffer base ps c k)).length <
      ((committed ps c m).flatMap (TxPacket.frame wrf)).length →
      ∃ k', k ≤ k' ∧ (transfers wrf (cycles buffer base ps c k)).length <
        (transfers wrf (cycles buffer base ps c k')).length := by
    intro k hk hlt
    obtain ⟨sent, h⟩ := hfed.serving wrf k
    have hpending : (after buffer base ps c k).pending ≠ [] := by
      intro hnil
      have hframes := h.framesOf
      rw [hnil] at hframes
      have hall := h.transfers_eq
      rw [hframes.eq_of_nil, ← List.flatMap_def] at hall
      have hsent : committed ps c k = sent := by rw [h.packets_eq, hnil, List.append_nil]
      have hle := (hmono hk).length_le
      rw [hsent, ← hall] at hle
      omega
    obtain ⟨k', hk', hsome⟩ := exists_transfer hfed hpending wrf hfree
    refine ⟨k' + 1, by omega, ?_⟩
    obtain ⟨w, hw⟩ := Option.ne_none_iff_exists'.1 hsome
    rw [cycles_succ, transfers_concat, hw, List.length_append]
    exact Nat.lt_succ_of_le (transfers_mono hk').length_le
  obtain ⟨k, hk, hle⟩ := exists_bound_le hgrow
  obtain ⟨sent, h⟩ := hfed.serving wrf k
  have hgone : transfers wrf (cycles buffer base ps c k) <+:
      (committed ps c k).flatMap (TxPacket.frame wrf) := by
    rw [h.transfers_eq, h.packets_eq]
    exact flatten_of_framesOf h.framesOf
  exact ⟨k, hk, List.prefix_of_prefix_length_le (hmono hk) hgone hle⟩

/-- **The reader sends the packets**, under every pattern of stalls. At any
time the cycles of `cyc` are the frames of the first packets, one each, and
at most a beginning of the next; every word taken is in one of them,
`PktRdPtr` stands behind the last packet that is sent, `Offset` is in its
range, and `Empty` is up when no packet is left. If the MAC is free again and
again, every packet is sent. -/
theorem sends_packets (hfed : Fed buffer base ps c) (wrf : WrFabric) :
    (∀ m, ∃ sent rest, committed ps c m = sent ++ rest ∧
      (after buffer base ps c m).mac.pktRdPtr =
        base + BitVec.ofNat txPktBufAdrsize (occupied sent) ∧
      FramesOf wrf sent rest (bursts wrf (cycles buffer base ps c m)).all ∧
      transfers wrf (cycles buffer base ps c m) =
        (bursts wrf (cycles buffer base ps c m)).all.flatten ∧
      (after buffer base ps c m).mac.offset ≤ maxReservPktBuf ∧
      ((after buffer base ps c m).empty = true ↔ rest = [])) ∧
    ((FreeMac fun m => (c m).stall) → ∀ m, ∃ k, m ≤ k ∧
      (committed ps c m).flatMap (TxPacket.frame wrf) <+:
        transfers wrf (cycles buffer base ps c k)) := by
  refine ⟨fun m => ?_, hfed.sends_all wrf⟩
  obtain ⟨sent, h⟩ := hfed.serving wrf m
  exact ⟨sent, (after buffer base ps c m).pending, h.packets_eq, h.pktPtr, h.framesOf,
    h.transfers_eq, h.sound.sending.offset_le, h.sound.laid.empty⟩

/-! Two packets, and a MAC that stalls in every third cycle. -/

def samplePackets : List TxPacket :=
  [⟨[0xCAFE, 0xBABE], by decide, by decide⟩, ⟨[0xD00D], by decide, by decide⟩]

/-- The packets at the beginning of the buffer. -/
def sampleBuffer : (array txPktBufAdrsize 17).State :=
  (fun a => (packetWords samplePackets).getD a.toNat 0, 0)

def sampleStalls (m : ℕ) : TxReadInput where
  stall := m % 3 = 0

theorem fed_sample : Fed sampleBuffer 0 samplePackets sampleStalls where
  held := holds_getD (by decide) 0
  room := by decide
  supplied _ :=
    ⟨fun hwe => (Bool.false_ne_true hwe).elim, fun _ hp => (Option.not_mem_none _ hp).elim⟩

theorem free_sample : FreeMac fun m => (sampleStalls m).stall := fun m =>
  ⟨3 * m + 1, by omega, decide_eq_false (by omega), decide_eq_false (by omega)⟩

theorem sends_packets_two :
    (∀ m, (after sampleBuffer 0 samplePackets sampleStalls m).mac.offset ≤ 4507) ∧
    ∃ k, [(2, 0x0204), (0, 0xCAFE), (0, 0xBABE), (2, 0x0204), (0, 0xD00D)] <+:
      transfers ⟨0, 1, 2, by decide, by decide⟩
        (cycles sampleBuffer 0 samplePackets sampleStalls k) := by
  obtain ⟨hsafe, hlive⟩ := sends_packets fed_sample ⟨0, 1, 2, by decide, by decide⟩
  constructor
  · intro m
    obtain ⟨_, _, _, _, _, _, hoffset, _⟩ := hsafe m
    exact hoffset
  · obtain ⟨k, _, hmono⟩ := hlive free_sample 0
    exact ⟨k, hmono⟩

end Forever

end TxReadSide

end Ipmux

end WrCalibration
