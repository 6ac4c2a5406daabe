import WrCalibration.Common.LeadsTo
import WrCalibration.Ipmux.TxRelay

/-!
# Every packet is served

A packet that is completely written to a stream goes out, when the MAC is
free again and again. The stages of a packet lead to one another
(`leadsTo_waiting`): only in `connected` something outside is waited for,
the room in the ring, and it comes since the MAC drains the ring
(`exists_drained`). Between two packets the pointer of `TxStreamSel` comes
nearer to a stream that waits, so every stream has its turn
(`leadsTo_selected`).
-/

namespace WrCalibration

namespace Ipmux

open Clocked GenericDpram Segments TxData2Buf

variable {ram : GenericDpram txPktBufAdrsize 17} {P : TxFifoPair}

/-! ## What has gone when the words have -/

/-- Where the words of some frames have all gone, the frames have. -/
theorem Begun.of_length_le {α : Type} {sent rest bs fs : List (List α)} (h : Begun sent rest bs)
    (hne : ∀ f ∈ rest, f ≠ []) (hfs : fs <+: sent ++ rest)
    (hle : fs.flatten.length ≤ bs.flatten.length) : fs <+: sent := by
  refine List.prefix_of_prefix_length_le hfs (List.prefix_append _ _) ?_
  by_contra hlt
  rw [not_le] at hlt
  -- otherwise the first frame of the rest is among them
  obtain ⟨more, hmore⟩ := hfs
  obtain ⟨f, fs', hfs'⟩ : ∃ f fs', fs = sent ++ f :: fs' := by
    obtain ⟨tail, htail⟩ := List.prefix_of_prefix_length_le (List.prefix_append sent rest)
      ⟨more, hmore⟩ hlt.le
    cases tail with
    | nil =>
      rw [← htail, List.append_nil] at hlt
      exact absurd hlt (Nat.lt_irrefl _)
    | cons f fs' => exact ⟨f, fs', htail.symm⟩
  have hrest : rest.head? = some f := by
    rw [hfs', List.append_assoc, List.append_right_inj, List.cons_append] at hmore
    rw [← hmore]
    rfl
  have hpos : 0 < f.length := List.length_pos_iff.2 (hne f (List.mem_of_mem_head? hrest))
  rw [hfs', List.flatten_append, List.flatten_cons, List.length_append, List.length_append] at hle
  rcases h with rfl | ⟨g, hg, w, hw, hwne, rfl⟩
  · omega
  · obtain rfl : f = g := Option.some.inj (hrest.symm.trans hg)
    have hlen : w.length < f.length := Nat.lt_of_le_of_ne hw.length_le fun heq =>
      hwne (hw.eq_of_length heq)
    rw [List.flatten_append, List.flatten_singleton, List.length_append] at hle
    omega

namespace TxHalf

section Service

variable {regs : EthRegs} {s : TxHalf ram P} {c : ℕ → TxHalfInput} {m m' : ℕ} {k : Fin numUdpPrts}

/-! ## What only grows -/

theorem done_mono (hm : m ≤ m') : (s.log c m).done <+: (s.log c m').done := by
  induction m', hm using Nat.le_induction with
  | base => exact List.prefix_refl _
  | succ m' _ ih =>
    refine ih.trans ?_
    rw [log, TxLog.step]
    split
    · exact List.prefix_append _ _
    · exact List.prefix_refl _

theorem written_mono (hm : m ≤ m') : s.written c m k <+: s.written c m' k := by
  induction m', hm using Nat.le_induction with
  | base => exact List.prefix_refl _
  | succ m' _ ih =>
    refine ih.trans ?_
    rw [written, written, TxStreams.packets, TxStreams.packets, streamsCycles_succ,
      List.flatMap_append]
    exact segments_isPrefix_append

theorem selected_mono (hm : m ≤ m') : TxStreams.selected k (s.streamsCycles c m) ≤
    TxStreams.selected k (s.streamsCycles c m') := by
  induction m', hm using Nat.le_induction with
  | base => exact Nat.le_refl _
  | succ m' _ ih =>
    rw [selected_succ]
    exact Nat.le_add_right_of_le ih

/-! ## The stages -/

variable (regs s c) in
/-- Some time at a stage, once the registers stay. -/
structure At (stage : Stage) (m : ℕ) : Prop where
  settled : Settled regs c m
  standing : Standing regs stage (s.log c m).now (s.after c m)

/-- **From stage to stage**, cycle by cycle. -/
theorem At.step (hdriven : Driven regs s c) {stage : Stage} (h : At regs s c stage m) :
    (∃ stage', stage.Goes (s.after c m).buffers.full (s.after c m).eodNow stage' ∧
      At regs s c stage' (m + 1) ∧ (s.log c (m + 1)).done = (s.log c m).done) ∨
    stage = .heading headerCycles ∧ At regs s c .waiting (m + 1) ∧
      (s.after c (m + 1)).sel.state = .idle := by
  obtain ⟨hrelayed, -⟩ := relayed hdriven m
  cases h.standing.step (hrelayed.calm hdriven h.settled h.standing) with
  | on hnot hgoes hnext =>
    refine Or.inl ⟨_, hgoes, ⟨h.settled.mono (Nat.le_succ m), ?_⟩, ?_⟩
    · rw [after_succ, log, TxLog.step, hnot, if_neg (by decide)]
      exact hnext
    · rw [log, TxLog.step, hnot, if_neg (by decide)]
  | commit hcommit hstage _ _ _ hidle hnext =>
    refine Or.inr ⟨hstage, ⟨h.settled.mono (Nat.le_succ m), ?_⟩, ?_⟩
    · rw [after_succ, log, TxLog.step, hcommit, if_pos rfl]
      exact hnext
    · rw [after_succ]
      exact hidle

variable (regs s c) in
/-- Some time at a stage, with a stream selected. -/
structure On (a : Fin numUdpPrts) (stage : Stage) (m : ℕ) : Prop extends At regs s c stage m where
  pointer : (s.after c m).sel.streamPointer = a

variable (regs s c) in
/-- Between two packets, after one of a stream. -/
structure Rests (a : Fin numUdpPrts) (m : ℕ) : Prop extends On regs s c a .waiting m where
  idle : (s.after c m).sel.state = .idle

variable {a b : Fin numUdpPrts}

/-- A packet that is on its way stays with its stream. -/
theorem On.step (hdriven : Driven regs s c) {stage : Stage} (h : On regs s c a stage m)
    (hstart : stage ≠ .starting) (hwait : stage ≠ .waiting) :
    (∃ stage', stage.Goes (s.after c m).buffers.full (s.after c m).eodNow stage' ∧
      On regs s c a stage' (m + 1) ∧ (s.log c (m + 1)).done = (s.log c m).done) ∨
    stage = .heading headerCycles ∧ Rests regs s c a (m + 1) := by
  have hpointer : (s.after c (m + 1)).sel.streamPointer = a := by
    rw [after_succ, h.standing.pointer hstart hwait, h.pointer]
  rcases h.toAt.step hdriven with ⟨stage', hgoes, hat, hdone⟩ | ⟨hstage, hat, hidle⟩
  · exact Or.inl ⟨stage', hgoes, ⟨hat, hpointer⟩, hdone⟩
  · exact Or.inr ⟨hstage, ⟨hat, hpointer⟩, hidle⟩

/-- **The MAC drains the ring**: what is committed goes. -/
theorem exists_carried (hdriven : Driven regs s c) (hfree : FreeMac fun m => (c m).stall)
    (wrf : WrFabric) (m : ℕ) :
    ∃ k sent rest, m ≤ k ∧ (s.log c k).done = sent ++ rest ∧ (s.log c m).done <+: sent ∧
      Carried wrf regs s c k sent rest ∧ ((s.after c k).buffers.empty = true ↔ rest = []) := by
  have hfree' : FreeMac fun m => (s.buffersInputs c m).stall := hfree
  obtain ⟨k, hk, hsent⟩ := Watched.exists_sent (streamsOnly hdriven) wrf hfree' m
  obtain ⟨sent, rest, hdone, hcarried, hempty⟩ := carried hdriven wrf k
  refine ⟨k, sent, rest, hk, hdone, ?_, hcarried, hempty⟩
  have hfs : ((s.log c m).done.map (frameOf regs)).map (onFabric wrf) <+:
      (sent.map (frameOf regs)).map (onFabric wrf) ++
        (rest.map (frameOf regs)).map (onFabric wrf) := by
    rw [← List.map_append, ← List.map_append, ← hdone]
    exact ((done_mono hk).map _).map _
  have hle := hsent.length_le
  rw [show TxBuffers.transfers wrf (s.watched.cycles (s.buffersInputs c) k) = _ from
    hcarried.transfers] at hle
  have hframes : (TxBuffers.packets (s.watched.cycles (s.buffersInputs c) m)).flatMap
      (TxPacket.frame wrf) =
      (((s.log c m).done.map (frameOf regs)).map (onFabric wrf)).flatten := by
    have hcommitted : (TxBuffers.packets (s.watched.cycles (s.buffersInputs c) m)).map
        TxPacket.words = (s.log c m).done.map (frameOf regs) := (relayed hdriven m).1.committed
    rw [← hcommitted, List.map_map, ← List.flatMap_def]
    rfl
  rw [hframes] at hle
  have hbegins := hcarried.begun.of_length_le (fun f hf => by
    obtain ⟨w, -, rfl⟩ := List.mem_map.1 hf
    exact List.cons_ne_nil _ _) hfs hle
  have hlen := hbegins.length_le
  rw [List.length_map, List.length_map, List.length_map, List.length_map] at hlen
  refine List.prefix_of_prefix_length_le ?_ (List.prefix_append sent rest) hlen
  rw [← hdone]
  exact done_mono hk

/-- **The ring gets room**, unless something is committed. -/
theorem exists_not_full (hdriven : Driven regs s c) (hfree : FreeMac fun m => (c m).stall)
    (hdone : ∀ k, m ≤ k → (s.log c k).done = (s.log c m).done) :
    ∃ k, m ≤ k ∧ (s.after c k).buffers.full = false := by
  obtain ⟨k, sent, rest, hk, hlog, hsent, -, hempty⟩ :=
    exists_carried hdriven hfree ⟨0, 1, 2, by decide, by decide⟩ m
  refine ⟨k, hk, ?_⟩
  have hrest : rest = [] := by
    have hlen := hsent.length_le
    have hall := congrArg List.length hlog
    rw [hdone k hk, List.length_append] at hall
    exact List.length_eq_zero_iff.1 (by omega)
  have hnone := hempty.2 hrest
  rw [TxBuffers.empty, PktBufFlags.empty, decide_eq_true_eq] at hnone
  rw [TxBuffers.full, PktBufFlags.full, decide_eq_false_iff_not]
  exact fun hboth => hboth.2 hnone

/-! ## From one stage to the next -/

section Stages

variable (hdriven : Driven regs s c) (hfree : FreeMac fun m => (c m).stall)

include hdriven hfree

/-- A stream that is connected is accepted. -/
theorem connected_leadsTo (a : Fin numUdpPrts) :
    LeadsTo (On regs s c a .connected) (On regs s c a .accepted) := by
  have hstep : ∀ m, On regs s c a .connected m →
      On regs s c a .connected (m + 1) ∧ (s.after c m).buffers.full = true ∧
        (s.log c (m + 1)).done = (s.log c m).done ∨ On regs s c a .accepted (m + 1) := by
    intro m hm
    rcases hm.step hdriven (by decide) (by decide) with ⟨stage', hgoes, hon, hdone⟩ | ⟨hstage, -⟩
    · cases hgoes with
      | hold hfull => exact Or.inl ⟨hon, hfull, hdone⟩
      | accept _ => exact Or.inr hon
    · cases hstage
  refine leadsTo_of_unless (fun m hm => (hstep m hm).imp_left And.left) fun m hall => ?_
  -- while it stays connected the ring is full, and the MAC takes what is in it
  have hstay : ∀ k, m ≤ k → (s.after c k).buffers.full = true ∧
      (s.log c (k + 1)).done = (s.log c k).done := by
    intro k hk
    rcases hstep k (hall k hk) with ⟨-, hfull, hdone⟩ | haccepted
    · exact ⟨hfull, hdone⟩
    · exact absurd (hall (k + 1) (by omega)).standing (not_connected_of_accepted haccepted.standing)
  have hdone : ∀ k, m ≤ k → (s.log c k).done = (s.log c m).done := by
    intro k hk
    induction k, hk using Nat.le_induction with
    | base => rfl
    | succ k hk ih => rw [(hstay k hk).2, ih]
  obtain ⟨k, hk, hfull⟩ := exists_not_full hdriven hfree hdone
  rw [(hstay k hk).1] at hfull
  cases hfull

omit hfree

theorem accepted_leadsTo (a : Fin numUdpPrts) :
    LeadsTo (On regs s c a .accepted) (On regs s c a .reading) := by
  refine leadsTo_of_step fun m hm => ?_
  rcases hm.step hdriven (by decide) (by decide) with ⟨stage', hgoes, hon, -⟩ | ⟨hstage, -⟩
  · cases hgoes with
    | opens => exact hon
  · cases hstage

/-- A packet is read to its end: no longer than it may be. -/
theorem reading_leadsTo (a : Fin numUdpPrts) :
    LeadsTo (On regs s c a .reading) (On regs s c a .last) := by
  refine leadsTo_of_rank (fun m => maxReservPktBuf - (s.log c m).now.length) fun m hm => ?_
  refine ⟨m + 1, Nat.le_succ m, ?_⟩
  obtain ⟨hrelayed, -⟩ := relayed hdriven m
  have hsize := hrelayed.size hdriven hm.standing
  rcases hm.step hdriven (by decide) (by decide) with ⟨stage', hgoes, hon, -⟩ | ⟨hstage, -⟩
  · cases hgoes with
    | finish _ => exact Or.inl hon
    | more _ =>
      refine Or.inr ⟨hon, ?_⟩
      have hreads : (s.after c m).reads.length = 1 ∧ (s.after c m).commits (c m) = false := by
        cases hm.standing with
        | reading hs _ hstreaming _ _ _ =>
          refine ⟨?_, not_commits (by rw [hstreaming.state]; decide)⟩
          rw [reads, if_pos hs]
          rfl
      rw [List.length_append, hreads.1] at hsize
      have hpayload : payload = 21 := rfl
      have hnow : (s.log c (m + 1)).now = (s.log c m).now ++ (s.after c m).reads := by
        rw [log, TxLog.step, hreads.2]
        rfl
      rw [hnow, List.length_append, hreads.1]
      omega
  · cases hstage

theorem last_leadsTo (a : Fin numUdpPrts) :
    LeadsTo (On regs s c a .last) (On regs s c a (.heading 1)) := by
  refine leadsTo_of_step fun m hm => ?_
  rcases hm.step hdriven (by decide) (by decide) with ⟨stage', hgoes, hon, -⟩ | ⟨hstage, -⟩
  · cases hgoes with
    | head => exact hon
  · cases hstage

/-- The headers are written, word by word. -/
theorem heading_leadsTo (a : Fin numUdpPrts) (d : ℕ) :
    ∀ n, n + d = headerCycles → LeadsTo (On regs s c a (.heading n)) (Rests regs s c a) := by
  induction d with
  | zero =>
    intro n hn
    refine leadsTo_of_step fun m hm => ?_
    rcases hm.step hdriven (by simp) (by simp) with ⟨stage', hgoes, hon, -⟩ | ⟨-, hrests⟩
    · cases hgoes with
      | next hlt => omega
    · exact hrests
  | succ d ih =>
    intro n hn
    refine LeadsTo.trans (leadsTo_of_step fun m hm => ?_) (ih (n + 1) (by omega))
    rcases hm.step hdriven (by simp) (by simp) with ⟨stage', hgoes, hon, -⟩ | ⟨hstage, -⟩
    · cases hgoes with
      | next _ => exact hon
    · rw [Stage.heading.injEq] at hstage
      omega

include hfree

/-- **A packet that is begun is finished**, and the search goes on behind
its stream. -/
theorem On.leadsTo_rests (a : Fin numUdpPrts) {stage : Stage} (hstart : stage ≠ .starting)
    (hwait : stage ≠ .waiting) : LeadsTo (On regs s c a stage) (Rests regs s c a) := by
  have hlast := (last_leadsTo hdriven a).trans (heading_leadsTo hdriven a 21 1 rfl)
  have hreading := (reading_leadsTo hdriven a).trans hlast
  have haccepted := (accepted_leadsTo hdriven a).trans hreading
  cases stage with
  | starting => exact absurd rfl hstart
  | waiting => exact absurd rfl hwait
  | connected => exact (connected_leadsTo hdriven hfree a).trans haccepted
  | accepted => exact haccepted
  | reading => exact hreading
  | last => exact hlast
  | heading n =>
    intro m hm
    have hle : n ≤ headerCycles := by
      cases hm.standing with
      | heading _ _ _ hheaders => exact hheaders.le
    exact heading_leadsTo hdriven a (headerCycles - n) n (by omega) m hm

/-- After every packet the next one is looked for. -/
theorem exists_waiting (m : ℕ) : ∃ k, m ≤ k ∧ At regs s c .waiting k := by
  obtain ⟨n, -, hregs⟩ := hdriven.ethRegs
  obtain ⟨m', hm', hlt⟩ : ∃ m', m ≤ m' ∧ n < m' := ⟨m + n + 1, by omega, by omega⟩
  obtain ⟨stage, hstanding⟩ := (relayed hdriven m').2 (Nat.zero_lt_of_lt hlt)
  have hat : At regs s c stage m' := ⟨⟨n, hlt, hregs⟩, hstanding⟩
  have hrests : stage ≠ .starting → stage ≠ .waiting → ∃ k, m ≤ k ∧ At regs s c .waiting k := by
    intro hstart hwait
    obtain ⟨k, hk, hrests⟩ := On.leadsTo_rests hdriven hfree _ hstart hwait m' ⟨hat, rfl⟩
    exact ⟨k, hm'.trans hk, hrests.toAt⟩
  by_cases hstart : stage = .starting
  · subst hstart
    refine ⟨m' + 1, by omega, ?_⟩
    rcases hat.step hdriven with ⟨stage', hgoes, hnext, -⟩ | ⟨hstage, -⟩
    · cases hgoes with
      | start => exact hnext
    · cases hstage
  by_cases hwait : stage = .waiting
  · subst hwait
    exact ⟨m', hm', hat⟩
  · exact hrests hstart hwait

end Stages

/-! ## The turn of a stream -/

/-- The second FIFO runs on its own, read once in every cycle. -/
theorem exists_eodEdges (m d : ℕ) : ∃ es : List (FifoEdge (BitVec 1)),
    es.countP FifoEdge.isRead = d ∧ ((s.after c (m + d)).streams.fifos k).eod =
      es.foldl P.eod.step ((s.after c m).streams.fifos k).eod := by
  induction d with
  | zero => exact ⟨[], rfl, rfl⟩
  | succ d ih =>
    obtain ⟨es, hcount, heod⟩ := ih
    refine ⟨es ++ TxFifo.eodEdges ((s.after c (m + d)).streams.fifoInput
      (s.streamsInputs c (m + d)) k), ?_, ?_⟩
    · rw [List.countP_append, hcount, TxFifo.countP_isRead_eodEdges]
    · rw [← Nat.add_assoc, after_succ, List.foldl_append, ← heod]
      exact TxFifo.eod_step

variable (s c m k) in
/-- The ends of data that a stream shows. -/
def shown : ℕ := P.eod.seen ((s.after c m).streams.fifos k).eod

theorem shown_mono (hm : m ≤ m') : s.shown c m k ≤ s.shown c m' k := by
  obtain ⟨d, rfl⟩ := Nat.exists_eq_add_of_le hm
  obtain ⟨es, -, heod⟩ := exists_eodEdges (s := s) (c := c) (k := k) m d
  rw [shown, shown, heod]
  exact AsyncFifo.seen_le_foldl es

/-- **What is written to a stream is shown** some cycles later. -/
theorem Relayed.le_shown (h : Relayed regs s c m) (k : Fin numUdpPrts) :
    (s.written c m k).length ≤ s.shown c (m + P.eod.delay) k := by
  obtain ⟨es, hcount, heod⟩ := exists_eodEdges (s := s) (c := c) (k := k) m P.eod.delay
  have hseen := P.eod.seen_run ((s.after c m).streams.fifos k).eod es hcount.ge
  rw [(h.kept k).eod, ← heod] at hseen
  rw [written, TxStreams.packets, length_segments]
  exact hseen

/-- What is shown and not selected waits in the second FIFO. -/
theorem Relayed.packet_iff (h : Relayed regs s c m) :
    ((s.after c m).streams.fifos k).packet = true ↔
      TxStreams.selected k (s.streamsCycles c m) < s.shown c m k := by
  rw [TxFifo.packet_iff, (h.kept k).taken]
  rfl

/-- How far the pointer is from the turn of a stream. -/
def turn (b : Fin numUdpPrts) (m : TxStreamSel) : ℕ :=
  if m.state = .searchConnect then 2 * TxStreamSel.away m.streamPointer b
  else 2 * TxStreamSel.away m.incStreamPointer b + 1

theorem away_next : ∀ a b : Fin numUdpPrts, a ≠ b →
    TxStreamSel.away (TxStreamSel.nextStream a) b + 1 = TxStreamSel.away a b := by
  decide

variable (regs s c) in
/-- Between two packets, while a stream waits. -/
structure Waits (b : Fin numUdpPrts) (n : ℕ) (m : ℕ) : Prop extends At regs s c .waiting m where
  selected : TxStreams.selected b (s.streamsCycles c m) = n
  shown : n < s.shown c m b

/-- What waits goes on waiting until its turn. -/
theorem Waits.later {n : ℕ} (h : Waits regs s c b n m) (hm : m ≤ m')
    (hat : At regs s c .waiting m') :
    n < TxStreams.selected b (s.streamsCycles c m') ∨ Waits regs s c b n m' := by
  have hmono := selected_mono (s := s) (c := c) (k := b) hm
  rw [h.selected] at hmono
  rcases Nat.eq_or_lt_of_le hmono with heq | hlt
  · exact Or.inr ⟨hat, heq.symm, h.shown.trans_le (shown_mono hm)⟩
  · exact Or.inl hlt

/-- The search goes on where no packet is found. -/
theorem search_step (h : At regs s c .waiting m) (hdriven : Driven regs s c)
    (hs : (s.after c (m + 1)).sel.state = .searchConnect) : At regs s c .waiting (m + 1) := by
  rcases h.step hdriven with ⟨stage', hgoes, hnext, -⟩ | ⟨hstage, -⟩
  · cases hgoes with
    | wait => exact hnext
    | connect => exact absurd (hs.symm.trans hnext.standing.state_connected) (by decide)
  · cases hstage

/-- **The turn of a stream comes nearer** with every look for a packet. -/
theorem Waits.nearer (hdriven : Driven regs s c) (hfree : FreeMac fun m => (c m).stall) {n : ℕ}
    (h : Waits regs s c b n m) : ∃ k, m ≤ k ∧ (n < TxStreams.selected b (s.streamsCycles c k) ∨
      Waits regs s c b n k ∧ turn b (s.after c k).sel < turn b (s.after c m).sel) := by
  obtain ⟨hrelayed, -⟩ := relayed hdriven m
  have hpacket : ((s.after c m).streams.fifos b).packet = true := by
    rw [hrelayed.packet_iff, h.selected]
    exact h.shown
  -- the pointer moves on and no packet is found
  have hon : (s.after c (m + 1)).sel.state = .searchConnect →
      (s.after c (m + 1)).sel.streamPointer = (s.after c m).sel.incStreamPointer →
      2 * TxStreamSel.away (s.after c m).sel.incStreamPointer b < turn b (s.after c m).sel →
      ∃ k, m ≤ k ∧ (n < TxStreams.selected b (s.streamsCycles c k) ∨
        Waits regs s c b n k ∧ turn b (s.after c k).sel < turn b (s.after c m).sel) := by
    intro hs hptr hlt
    refine ⟨m + 1, Nat.le_succ m, ?_⟩
    have hat := search_step h.toAt hdriven hs
    refine (h.later (Nat.le_succ m) hat).imp_right fun hwaits => ⟨hwaits, ?_⟩
    rw [turn, if_pos hs, hptr]
    exact hlt
  obtain ⟨hs | hs, hreq⟩ := h.standing.waits
  · have hany : (List.finRange numUdpPrts).any ((s.after c m).streams.selInput
        ((s.after c m).streamsInput (c m))).packet = true :=
      List.any_eq_true.2 ⟨b, List.mem_finRange b, hpacket⟩
    have hasks : ((s.after c m).streams.selInput
        ((s.after c m).streamsInput (c m))).connectReq = true := hreq
    have hsel : (s.after c (m + 1)).sel.state = .searchConnect ∧
        (s.after c (m + 1)).sel.streamPointer = (s.after c m).sel.incStreamPointer := by
      rw [after_succ, sel_step]
      simp [TxStreamSel.step, hs, hany, hasks]
    refine hon hsel.1 hsel.2 ?_
    rw [turn, if_neg (by rw [hs]; decide)]
    exact Nat.lt_succ_self _
  -- the turn of the stream that the pointer stands on
  · have hnext : ∀ {a}, (s.after c m).sel.streamPointer = a → a ≠ b →
        2 * TxStreamSel.away (TxStreamSel.nextStream a) b + 1 < turn b (s.after c m).sel := by
      intro a ha hab
      rw [turn, if_pos hs, ha, ← away_next a b hab]
      omega
    by_cases hfound : ((s.after c m).streams.fifos (s.after c m).sel.streamPointer).packet = true
    · have hsel : (s.after c (m + 1)).sel.state = .stateConnected ∧
          (s.after c (m + 1)).sel.streamPointer = (s.after c m).sel.streamPointer ∧
          (s.after c (m + 1)).sel.packetRdReq (s.after c m).sel.streamPointer = true := by
        rw [after_succ, sel_step]
        simp [TxStreamSel.step, hs, TxStreams.selInput, hfound, TxStreamSel.pipeline]
      by_cases hab : (s.after c m).sel.streamPointer = b
      · refine ⟨m + 2, by omega, Or.inl ?_⟩
        have hmono := selected_mono (s := s) (c := c) (k := b) (Nat.le_succ m)
        rw [h.selected] at hmono
        rw [selected_succ, ← hab, hsel.2.2, hab]
        exact Nat.lt_succ_of_le hmono
      · have hconnected : On regs s c (s.after c m).sel.streamPointer .connected (m + 1) := by
          refine ⟨?_, hsel.2.1⟩
          rcases h.toAt.step hdriven with ⟨stage', hgoes, hat, -⟩ | ⟨hstage, -⟩
          · cases hgoes with
            | wait =>
              rcases hat.standing.waits.1 with hs' | hs'
              · exact absurd (hs'.symm.trans hsel.1) (by decide)
              · exact absurd (hs'.symm.trans hsel.1) (by decide)
            | connect => exact hat
          · cases hstage
        obtain ⟨k, hk, hrests⟩ :=
          On.leadsTo_rests hdriven hfree _ (by decide) (by decide) _ hconnected
        refine ⟨k, by omega, (h.later (by omega) hrests.toAt).imp_right fun hwaits => ⟨hwaits, ?_⟩⟩
        rw [turn, if_neg (by rw [hrests.idle]; decide), TxStreamSel.incStreamPointer,
          hrests.pointer]
        exact hnext rfl hab
    · have hsel : (s.after c (m + 1)).sel.state = .searchConnect ∧
          (s.after c (m + 1)).sel.streamPointer = (s.after c m).sel.incStreamPointer := by
        rw [after_succ, sel_step]
        simp [TxStreamSel.step, hs, TxStreams.selInput, hfound]
      have hab : (s.after c m).sel.streamPointer ≠ b := fun hab => hfound (by rw [hab, hpacket])
      exact hon hsel.1 hsel.2 (Nat.lt_of_succ_lt (hnext rfl hab))

/-- **Every stream has its turn.** -/
theorem leadsTo_selected (hdriven : Driven regs s c) (hfree : FreeMac fun m => (c m).stall)
    (b : Fin numUdpPrts) (n : ℕ) :
    LeadsTo (Waits regs s c b n) fun k => n < TxStreams.selected b (s.streamsCycles c k) :=
  leadsTo_of_rank (fun m => turn b (s.after c m).sel) fun _ h =>
    (h.nearer hdriven hfree).imp fun _ hk => ⟨hk.1, hk.2⟩

/-! ## Every packet -/

section Serves

variable (hdriven : Driven regs s c) (hfree : FreeMac fun m => (c m).stall)

include hdriven hfree

/-- What is written to a stream is selected. -/
theorem exists_selected (m : ℕ) (b : Fin numUdpPrts) : ∃ k, m ≤ k ∧
    (s.written c m b).length ≤ TxStreams.selected b (s.streamsCycles c k) := by
  refine exists_bound_le fun k hk hlt => ?_
  obtain ⟨k₁, hk₁, hat⟩ := exists_waiting hdriven hfree (k + P.eod.delay)
  have hmono := selected_mono (s := s) (c := c) (k := b) (show k ≤ k₁ by omega)
  rcases Nat.eq_or_lt_of_le hmono with heq | hgrown
  · have hwritten := (written_mono (s := s) (c := c) (k := b) hk).length_le
    have hshown := ((relayed hdriven k).1.le_shown b).trans (shown_mono hk₁)
    obtain ⟨k₂, hk₂, hselected⟩ := leadsTo_selected hdriven hfree b _ k₁
      ⟨hat, heq.symm, hlt.trans_le (hwritten.trans hshown)⟩
    exact ⟨k₂, by omega, hselected⟩
  · exact ⟨k₁, by omega, hgrown⟩

/-- What is written to a stream is committed. -/
theorem exists_committed (m : ℕ) (b : Fin numUdpPrts) : ∃ k, m ≤ k ∧
    s.written c m b <+: ofStream b (s.log c k).done := by
  obtain ⟨k, hk, hselected⟩ := exists_selected hdriven hfree m b
  obtain ⟨k', hk', hat⟩ := exists_waiting hdriven hfree (k + 1)
  obtain ⟨hrelayed, -⟩ := relayed hdriven k'
  refine ⟨k', by omega, ?_⟩
  have hbegins : ofStream b (s.log c k').done <+: s.written c k' b := by
    rw [hrelayed.written_eq]
    exact List.prefix_append _ _
  refine List.prefix_of_prefix_length_le (written_mono (by omega)) hbegins ?_
  -- between two packets every packet that was selected is committed
  have haway : (s.after c k').sel.phase b = .away := TxStreamSel.phase_away hat.standing.waits.1
  have hcount := (hrelayed.kept b).selected
  have hmono := selected_mono (s := s) (c := c) (k := b) (Nat.le_of_succ_le hk')
  have hgone : (s.log c k').gone b (s.after c k').sel.streamPointer =
      (ofStream b (s.log c k').done).flatten := by
    rw [TxLog.gone, hat.standing.now_eq_nil, ite_self, List.append_nil]
  have hlength : (ofStream b (s.log c k').done).length =
      (ofStream b (s.log c k').done).flatten.countP Dbus.eod := by
    rw [← length_segments, ← List.append_nil (ofStream b (s.log c k').done).flatten,
      segments_flatten_append hrelayed.isSegment_ofStream]
    exact congrArg List.length (List.append_nil _).symm
  rw [haway, hgone, ← hlength] at hcount
  change _ = _ + 0 at hcount
  omega

end Serves

/-- **The transmit half serves its streams.** In every run with a quiet CPU,
whose registers stay before anything is written, and whose writers lag no longer
behind `Full` than they may and write no packet longer than the reserve: at any
time the MAC has got frames of packets, one for each in a cycle of `cyc` of its
own, and at most the beginning of one more, and the packets of each stream among
them are the first ones that were written to it, in their order. If the MAC is
free again and again, every packet that was completely written to a stream goes
out. -/
theorem serves (hdriven : Driven regs s c) (wrf : WrFabric) :
    (∀ m, ∃ sent rest, Carried wrf regs s c m sent rest) ∧
    ((FreeMac fun m => (c m).stall) → ∀ m k, ∃ m' sent rest, m ≤ m' ∧
      Carried wrf regs s c m' sent rest ∧ s.written c m k <+: ofStream k sent) := by
  constructor
  · intro m
    obtain ⟨sent, rest, -, hcarried, -⟩ := carried hdriven wrf m
    exact ⟨sent, rest, hcarried⟩
  · intro hfree m k
    obtain ⟨m₁, hm₁, hcommitted⟩ := exists_committed hdriven hfree m k
    obtain ⟨m₂, sent, rest, hm₂, -, hdone, hcarried, -⟩ := exists_carried hdriven hfree wrf m₁
    exact ⟨m₂, sent, rest, hm₁.trans hm₂, hcarried, hcommitted.trans (hdone.filterMap _)⟩

/-! Two packets of two streams. -/

/-- A cycle that writes a word to a stream. -/
def sampleWord (k : Fin numUdpPrts) (d : Word) (eod : Bool) : TxHalfInput where
  writes j := [⟨decide (j = k), { d, eod }⟩]
  ethRegs := sampleRegs

/-- The writes, and idle cycles behind them. -/
def sampleWrites (m : ℕ) : TxHalfInput :=
  [sampleWord 1 0xCAFE false, sampleWord 1 0xBABE true, sampleWord 2 0xD00D true].getD m
    { ethRegs := sampleRegs }

/-- Nothing in the FIFOs, with two registers on each way, and in the buffer. -/
def sampleHalf : TxHalf (array txPktBufAdrsize 17) (syncedTxFifos 2) where
  streams := TxStreams.sampleStreams 2
  buffers := Watched.sampleWatched.buffers

/-- After the writes nothing is written. -/
theorem sampleWrites_later (m : ℕ) : sampleWrites (3 + m) = { ethRegs := sampleRegs } :=
  List.getD_eq_default _ _ (Nat.le_add_right 3 m)

/-- A writer finds `Full` down. -/
theorem full_sample (m : ℕ) (k : Fin numUdpPrts) :
    ∀ x ∈ sampleHalf.writeEdges sampleWrites m k, x.1.full = false := by
  have hfirst : ∀ m ≤ 3, ∀ k, ∀ x ∈ sampleHalf.writeEdges sampleWrites m k,
      x.1.full = false := by
    decide +kernel
  rcases Nat.lt_or_ge m 3 with hm | hm
  · exact hfirst m hm.le k
  · have hsame : sampleHalf.writeEdges sampleWrites m k =
        sampleHalf.writeEdges sampleWrites 3 k := by
      induction m, hm using Nat.le_induction with
      | base => rfl
      | succ m hm ih =>
        obtain ⟨j, rfl⟩ := Nat.exists_eq_add_of_le hm
        have hnone : (sampleHalf.streamsInputs sampleWrites (3 + j)).writes k = [] :=
          congrArg (fun i => TxHalfInput.writes i k) (sampleWrites_later j)
        rw [writeEdges_succ, ih, TxStreams.writeEdges, hnone]
        exact List.append_nil _
    rw [hsame]
    exact hfirst 3 le_rfl k

theorem driven_sample : Driven sampleRegs sampleHalf sampleWrites := by
  refine ⟨⟨0, fun m hm => absurd hm (Nat.not_lt_zero m), fun m _ => ?_⟩, fun m => ?_,
    fun m k pre x hpre _ => ?_, fun m k p hp => ?_⟩
  · rcases m with _ | _ | _ | m <;> rfl
  · rcases m with _ | _ | _ | m <;> rfl
  · exact ⟨pre, x, [], rfl, Nat.zero_le _, full_sample m k x (hpre.subset (by simp))⟩
  · -- three words are written at most
    have hlen := length_le_of_mem_segments hp
    rw [flatMap_written] at hlen
    have hthree : ((upTo sampleWrites m).flatMap fun i =>
        (i.writes k).filterMap TxWrite.word).length ≤ 3 := by
      rcases Nat.lt_or_ge m 3 with hm | hm
      · have hfirst : ∀ m < 3, ∀ k, ((upTo sampleWrites m).flatMap fun i =>
            (i.writes k).filterMap TxWrite.word).length ≤ 3 := by
          decide +kernel
        exact hfirst m hm k
      · obtain ⟨j, rfl⟩ := Nat.exists_eq_add_of_le hm
        have hnone : (upTo (fun i => sampleWrites (3 + i)) j).flatMap (fun i =>
            (i.writes k).filterMap TxWrite.word) = [] := by
          simp [upTo, sampleWrites_later]
        have hfirst : ∀ k, ((upTo sampleWrites 3).flatMap fun i =>
            (i.writes k).filterMap TxWrite.word).length ≤ 3 := by
          decide +kernel
        rw [upTo_add, List.flatMap_append, hnone, List.append_nil]
        exact hfirst k
    have hmax : payload + 3 ≤ maxReservPktBuf := by decide
    omega

theorem serves_sample : ∃ m sent rest,
    Carried ⟨0, 1, 2, by decide, by decide⟩ sampleRegs sampleHalf sampleWrites m sent rest ∧
      [[{ d := 0xCAFE, eod := false }, { d := 0xBABE, eod := true }]] <+: ofStream 1 sent := by
  obtain ⟨-, hlive⟩ := serves driven_sample ⟨0, 1, 2, by decide, by decide⟩
  obtain ⟨m, sent, rest, -, hcarried, hsent⟩ := hlive (fun m => ⟨m + 3, by omega, rfl, rfl⟩) 3 1
  refine ⟨m, sent, rest, hcarried, ?_⟩
  have hwritten : sampleHalf.written sampleWrites 3 1 =
      [[{ d := 0xCAFE, eod := false }, { d := 0xBABE, eod := true }]] := by
    decide +kernel
  rwa [hwritten] at hsent

end Service

end TxHalf

end Ipmux

end WrCalibration
