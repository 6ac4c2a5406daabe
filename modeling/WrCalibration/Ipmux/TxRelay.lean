import WrCalibration.Ipmux.TxHalf

/-!
# What the transmit half relays

A run of the transmit half, from a reset on, with registers that stay before
anything is written and a quiet CPU. The words that were read from a stream are whole packets of
it, in their order, but for the one on its way (`Relayed.kept`), and what
is committed are the frames of those packets (`Relayed.committed`); so
what the MAC gets are these frames (`Relayed.carried`).
-/

namespace WrCalibration

namespace Ipmux

open Clocked GenericDpram Segments TxData2Buf

variable {ram : GenericDpram txPktBufAdrsize 17} {P : TxFifoPair}

namespace TxHalf

/-! ## A run -/

section Run

variable (s : TxHalf ram P) (c : ℕ → TxHalfInput) (m : ℕ)

/-- The state after some cycles from a reset. -/
def after : TxHalf ram P := run step s.reset (upTo c m)

/-- What was read by then. -/
def log : ℕ → TxLog
  | 0 => {}
  | m + 1 => (log m).step (s.after c m) (c m)

/-- What the parts see, cycle by cycle. -/
def buffersInputs : TxBuffersInput := (s.after c m).buffersInput (c m)

@[inherit_doc buffersInputs]
def streamsInputs : TxStreamsInput := (s.after c m).streamsInput (c m)

/-- The transmit buffers, watched. -/
def watched : Watched ram where
  buffers := s.buffers
  ledger := {}

@[inherit_doc watched]
def watchedAfter : Watched ram := s.watched.after (s.buffersInputs c) m

/-- The cycles of the parts. -/
def buffersCycles : List (TxBuffers ram × TxBuffersInput) :=
  s.watched.cycles (s.buffersInputs c) m

@[inherit_doc buffersCycles]
def streamsCycles : List (TxStreams P × TxStreamsInput) :=
  trace TxStreams.step s.streams.reset (upTo (s.streamsInputs c) m)

/-- The edges of the writer of a stream. -/
def writeEdges (k : Fin numUdpPrts) : List (TxFifo P × TxWrite) :=
  (s.streamsCycles c m).flatMap (TxStreams.writeEdges k)

/-- The packets that were written to a stream. -/
def written (k : Fin numUdpPrts) : List (List Dbus) := TxStreams.packets k (s.streamsCycles c m)

variable {s c m}

theorem after_succ : s.after c (m + 1) = (s.after c m).step (c m) := run_upTo_succ

theorem streams_after : (s.after c m).streams =
    run TxStreams.step s.streams.reset (upTo (s.streamsInputs c) m) := by
  induction m with
  | zero => rfl
  | succ m ih =>
    rw [after_succ, run_upTo_succ, ← ih]
    rfl

theorem watchedAfter_succ : s.watchedAfter c (m + 1) =
    (s.watchedAfter c m).step (s.buffersInputs c m) := Watched.after_succ

theorem buffers_after : (s.watchedAfter c m).buffers = (s.after c m).buffers := by
  induction m with
  | zero => rfl
  | succ m ih =>
    rw [after_succ, watchedAfter_succ, Watched.step, ih]
    rfl

theorem streamsCycles_succ : s.streamsCycles c (m + 1) =
    s.streamsCycles c m ++ [((s.after c m).streams, s.streamsInputs c m)] := by
  rw [streamsCycles, trace_upTo_succ, ← streams_after]
  rfl

theorem writeEdges_succ {k : Fin numUdpPrts} : s.writeEdges c (m + 1) k =
    s.writeEdges c m k ++ TxStreams.writeEdges k ((s.after c m).streams, s.streamsInputs c m) := by
  rw [writeEdges, streamsCycles_succ, List.flatMap_append, List.flatMap_singleton]
  rfl

theorem selected_succ {k : Fin numUdpPrts} : TxStreams.selected k (s.streamsCycles c (m + 1)) =
    TxStreams.selected k (s.streamsCycles c m) +
      if (s.after c m).sel.packetRdReq k then 1 else 0 := by
  rw [TxStreams.selected, streamsCycles_succ, List.countP_append, List.countP_singleton]
  rfl

/-- The words that were written are those of the inputs. -/
theorem flatMap_written {k : Fin numUdpPrts} :
    (s.streamsCycles c m).flatMap (TxStreams.written k) =
      (upTo c m).flatMap fun i => (i.writes k).filterMap TxWrite.word := by
  induction m with
  | zero => rfl
  | succ m ih =>
    rw [streamsCycles_succ, List.flatMap_append, ih, upTo_succ, List.flatMap_append,
      List.flatMap_singleton, List.flatMap_singleton]
    rfl

theorem packets_succ : TxBuffers.packets (s.buffersCycles c (m + 1)) =
    TxBuffers.packets (s.buffersCycles c m) ++
      ((s.after c m).buffers.packet (s.buffersInputs c m)).toList := by
  rw [TxBuffers.packets, buffersCycles, Watched.cycles, filterMap_trace_upTo_succ,
    ← Watched.buffers_after]
  rw [show (s.watched.after (s.buffersInputs c) m).buffers = _ from buffers_after]
  rfl

end Run

/-! ## What a cycle adds to the log -/

section Log

variable {l : TxLog} {s : TxHalf ram P} {c : TxHalfInput} {k : Fin numUdpPrts}

theorem ofStream_append (ps qs : List (Fin numUdpPrts × List Dbus)) :
    ofStream k (ps ++ qs) = ofStream k ps ++ ofStream k qs := List.filterMap_append

theorem ofStream_singleton (j : Fin numUdpPrts) (p : List Dbus) :
    ofStream k [(j, p)] = if j = k then [p] else [] := by
  unfold ofStream
  split <;> simp_all

/-- The words that are read go to the stream that is selected. -/
theorem gone_step (hcommit : s.commits c = true → s.reads = [])
    (hptr : s.commits c = false → l.now ++ s.reads ≠ [] →
      (s.step c).sel.streamPointer = s.sel.streamPointer) :
    (l.step s c).gone k (s.step c).sel.streamPointer =
      l.gone k s.sel.streamPointer ++ if s.sel.streamPointer = k then s.reads else [] := by
  cases h : s.commits c with
  | true =>
    rw [TxLog.gone, TxLog.gone, TxLog.step, h, if_pos rfl, if_pos rfl, hcommit h, ofStream_append,
      ofStream_singleton, List.flatten_append]
    by_cases hk : s.sel.streamPointer = k
    · simp [hk]
    · simp [hk]
  | false =>
    rw [TxLog.gone, TxLog.gone, TxLog.step, h, if_neg (by decide), if_neg (by decide)]
    by_cases hnone : l.now ++ s.reads = []
    · obtain ⟨hnow, hreads⟩ := List.append_eq_nil_iff.1 hnone
      simp [hnow, hreads]
    · rw [hptr h hnone]
      by_cases hk : s.sel.streamPointer = k
      · simp [hk]
      · simp [hk]

end Log

/-! ## The invariant -/

/-- From some earlier cycle on the registers stay. -/
def Settled (regs : EthRegs) (c : ℕ → TxHalfInput) (m : ℕ) : Prop :=
  ∃ n < m, ∀ j, n ≤ j → (c j).ethRegs = regs

theorem Settled.mono {m' : ℕ} (h : Settled regs c m) (hm : m ≤ m') : Settled regs c m' := by
  obtain ⟨n, hn, hregs⟩ := h
  exact ⟨n, hn.trans_le hm, hregs⟩

/-- **What the run is like**: the registers stay before anything is written, the
CPU is quiet, the writers lag behind `Full` no longer than they may, and no
packet is longer than the reserve. -/
structure Driven (regs : EthRegs) (s : TxHalf ram P) (c : ℕ → TxHalfInput) : Prop where
  ethRegs : ∃ n, (∀ m < n, ∀ k, ∀ w ∈ (c m).writes k, w.wrReq = false) ∧
    ∀ m, n ≤ m → (c m).ethRegs = regs
  request : ∀ m, (c m).cpuTx.request = false
  full : ∀ m k pre x, pre ++ [x] <+: s.writeEdges c m k → x.2.wrReq = true →
    TxFifo.Within P.lag (pre ++ [x])
  size : ∀ m k, ∀ p ∈ s.written c m k, payload + p.length ≤ maxReservPktBuf

section Relayed

variable {regs : EthRegs} {s : TxHalf ram P} {c : ℕ → TxHalfInput} {m : ℕ} {k : Fin numUdpPrts}

/-- The frame of a packet of a stream. -/
def frameOf (regs : EthRegs) (p : Fin numUdpPrts × List Dbus) : List Word :=
  wholeFrame regs p.1 (p.2.map Dbus.d)

/-- **The invariant of a run.** -/
structure Relayed (regs : EthRegs) (s : TxHalf ram P) (c : ℕ → TxHalfInput) (m : ℕ) : Prop where
  ringed : Ringed (s.watchedAfter c m)
  kept : ∀ k, TxFifo.Kept ((s.log c m).gone k (s.after c m).sel.streamPointer)
    ((s.streamsCycles c m).flatMap (TxStreams.written k))
    (TxStreams.selected k (s.streamsCycles c m)) ((s.after c m).sel.phase k)
    ((s.after c m).streams.fifos k)
  isSegment : ∀ p ∈ (s.log c m).done, IsSegment Dbus.eod p.2
  committed : (TxBuffers.packets (s.buffersCycles c m)).map TxPacket.words =
    (s.log c m).done.map (frameOf regs)
  pulsed : (s.after c m).sel.Pulsed

theorem relayed_zero : Relayed regs s c 0 where
  ringed := ringed_reset _
  kept k := by
    have haway : (s.after c 0).sel.phase k = .away := TxStreamSel.phase_away (.inl rfl)
    have hgone : (s.log c 0).gone k (s.after c 0).sel.streamPointer = [] := by
      simp [log, TxLog.gone, ofStream]
    rw [haway, hgone]
    exact TxFifo.kept_reset _
  isSegment p hp := by cases hp
  committed := rfl
  pulsed := TxStreamSel.pulsed_reset

/-- **A writer that does not lag too long finds room.** -/
theorem Driven.tracked (h : Driven regs s c) (k : Fin numUdpPrts) (m : ℕ) :
    TxFifo.Tracked (s.writeEdges c m k) ((s.after c m).streams.fifos k) ∧
      ∀ x ∈ TxStreams.writeEdges k ((s.after c m).streams, s.streamsInputs c m),
        x.2.wrReq = true → x.1.Room := by
  -- one cycle, from what the edges before it tell
  have hcycle : ∀ m, TxFifo.Tracked (s.writeEdges c m k) ((s.after c m).streams.fifos k) →
      TxFifo.Tracked (s.writeEdges c (m + 1) k) ((s.after c (m + 1)).streams.fifos k) ∧
        ∀ x ∈ TxStreams.writeEdges k ((s.after c m).streams, s.streamsInputs c m),
          x.2.wrReq = true → x.1.Room := by
    intro m htracked
    rw [writeEdges_succ, after_succ]
    refine htracked.read.writes fun pre x hpre hw => ?_
    rw [← List.append_assoc]
    refine h.full (m + 1) k _ x ?_ hw
    rw [writeEdges_succ, List.append_assoc, List.prefix_append_right_inj]
    exact hpre
  have htracked : ∀ m, TxFifo.Tracked (s.writeEdges c m k) ((s.after c m).streams.fifos k) := by
    intro m
    induction m with
    | zero => exact TxFifo.tracked_nil
    | succ m ih => exact (hcycle m ih).1
  exact ⟨htracked m, (hcycle m (htracked m)).2⟩

/-- What a cycle has to be like for the parts. -/
structure Keeps (regs : EthRegs) (s : TxHalf ram P) (c : ℕ → TxHalfInput) (m : ℕ) : Prop where
  room : ∀ k, ∀ x ∈ TxStreams.writeEdges k ((s.after c m).streams, s.streamsInputs c m),
    x.2.wrReq = true → x.1.Room
  streams : Watched.StreamsOnly (s.watchedAfter c m, s.buffersInputs c m)
  commit : (s.after c m).commits (c m) = true → (s.after c m).reads = [] ∧
    IsSegment Dbus.eod (s.log c m).now ∧
    leftFrame (s.after c m).tx ((s.after c m).step (c m)).tx =
      frameOf regs ((s.after c m).sel.streamPointer, (s.log c m).now)
  pointer : (s.log c m).now ++ (s.after c m).reads ≠ [] →
    ((s.after c m).step (c m)).sel.streamPointer = (s.after c m).sel.streamPointer

/-- The FIFOs of the streams. -/
theorem Relayed.kept_step (h : Relayed regs s c m) (hc : Keeps regs s c m) (k : Fin numUdpPrts) :
    TxFifo.Kept ((s.log c (m + 1)).gone k (s.after c (m + 1)).sel.streamPointer)
      ((s.streamsCycles c (m + 1)).flatMap (TxStreams.written k))
      (TxStreams.selected k (s.streamsCycles c (m + 1))) ((s.after c (m + 1)).sel.phase k)
      ((s.after c (m + 1)).streams.fifos k) := by
  have hstep := TxStreams.kept_step (c := s.streamsInputs c m) (h.kept k) h.pulsed (hc.room k)
  have hwritten : (s.streamsCycles c (m + 1)).flatMap (TxStreams.written k) =
      (s.streamsCycles c m).flatMap (TxStreams.written k) ++
        TxStreams.written k ((s.after c m).streams, s.streamsInputs c m) := by
    rw [streamsCycles_succ, List.flatMap_append, List.flatMap_singleton]
  have hgone : (s.log c (m + 1)).gone k (s.after c (m + 1)).sel.streamPointer =
      (s.log c m).gone k (s.after c m).sel.streamPointer ++
        ((s.after c m).streams.fifos k).taken ((s.after c m).sel.rdReqOut k) := by
    rw [after_succ, log, gone_step (fun hcommit => (hc.commit hcommit).1) fun _ => hc.pointer,
      (h.kept k).taken_eq TxStreamSel.rdReqOut_eq]
    congr 1
    simp only [TxStreamSel.phase_eq_reading]
    by_cases hk : (s.after c m).sel.streamPointer = k
    · subst hk
      simp [reads]
    · simp [hk]
  rw [hwritten, selected_succ, hgone, after_succ]
  exact hstep

/-- The packets that are committed. -/
theorem Relayed.committed_step (h : Relayed regs s c m) (hc : Keeps regs s c m) :
    (TxBuffers.packets (s.buffersCycles c (m + 1))).map TxPacket.words =
      (s.log c (m + 1)).done.map (frameOf regs) := by
  rw [packets_succ, List.map_append, h.committed, log, TxLog.step]
  cases hcommit : (s.after c m).commits (c m) with
  | true =>
    have hcommit' : (s.watchedAfter c m).buffers.commits (s.buffersInputs c m) = true := by
      rw [buffers_after]
      exact hcommit
    obtain ⟨p, hp, -⟩ := h.ringed.packet hc.streams hcommit'
    rw [buffers_after] at hp
    obtain ⟨-, hwords⟩ := TxBuffers.packet_eq_some _ _ hp
    rw [hp, if_pos rfl, List.map_append, Option.toList_some, List.map_singleton,
      List.map_singleton, hwords, ← (hc.commit hcommit).2.2]
    rfl
  | false =>
    have hnone : (s.after c m).buffers.packet (s.buffersInputs c m) = none :=
      TxBuffers.packet_eq_none hcommit
    rw [hnone, if_neg (by decide)]
    exact List.append_nil _

/-- **One cycle keeps the invariant.** -/
theorem Relayed.step (h : Relayed regs s c m) (hc : Keeps regs s c m) :
    Relayed regs s c (m + 1) where
  ringed := by
    rw [watchedAfter_succ]
    exact h.ringed.step hc.streams
  kept := h.kept_step hc
  isSegment := by
    rw [log, TxLog.step]
    cases hcommit : (s.after c m).commits (c m) with
    | true =>
      rw [if_pos rfl]
      intro p hp
      rcases List.mem_append.1 hp with hp | hp
      · exact h.isSegment p hp
      · rw [List.mem_singleton.1 hp]
        exact (hc.commit hcommit).2.1
    | false =>
      rw [if_neg (by decide)]
      exact h.isSegment
  committed := h.committed_step hc
  pulsed := by
    rw [after_succ]
    exact h.pulsed.step

/-! ### What was written -/

theorem Relayed.isSegment_ofStream (h : Relayed regs s c m) :
    ∀ p ∈ ofStream k (s.log c m).done, IsSegment Dbus.eod p := by
  intro p hp
  obtain ⟨q, hq, hqp⟩ := List.mem_filterMap.1 hp
  rw [Option.ite_none_right_eq_some, Option.some.injEq] at hqp
  rw [← hqp.2]
  exact h.isSegment q hq

/-- **The packets of a stream**: those that are committed, and what is
behind them. -/
theorem Relayed.written_eq (h : Relayed regs s c m) (k : Fin numUdpPrts) :
    s.written c m k = ofStream k (s.log c m).done ++ segments Dbus.eod
      ((if (s.after c m).sel.streamPointer = k then (s.log c m).now else []) ++
        ((s.after c m).streams.fifos k).pending) := by
  rw [written, TxStreams.packets, (h.kept k).written, TxLog.gone, List.append_assoc,
    segments_flatten_append h.isSegment_ofStream]

/-- A packet that is on its way was written to its stream. -/
theorem Relayed.mem_written (h : Relayed regs s c m) {p rest : List Dbus}
    (hp : IsSegment Dbus.eod ((s.log c m).now ++ p))
    (hpend : ((s.after c m).streams.fifos (s.after c m).sel.streamPointer).pending = p ++ rest) :
    (s.log c m).now ++ p ∈ s.written c m (s.after c m).sel.streamPointer := by
  rw [h.written_eq, if_pos rfl, hpend, ← List.append_assoc, segments_segment_append hp]
  exact List.mem_append_right _ List.mem_cons_self

/-- What is read of a packet, at any time, has room in the buffer. -/
theorem Relayed.size (h : Relayed regs s c m) (hdriven : Driven regs s c) {stage : Stage}
    (hstanding : Standing regs stage (s.log c m).now (s.after c m)) :
    payload + ((s.log c m).now ++ (s.after c m).reads).length ≤ maxReservPktBuf := by
  have hnone : (s.log c m).now = [] → (s.after c m).reads = [] →
      payload + ((s.log c m).now ++ (s.after c m).reads).length ≤ maxReservPktBuf := by
    intro hnow hreads
    rw [hnow, hreads]
    decide
  have hwhole : IsSegment Dbus.eod (s.log c m).now → (s.after c m).reads = [] →
      payload + ((s.log c m).now ++ (s.after c m).reads).length ≤ maxReservPktBuf := by
    intro hsegment hreads
    rw [hreads]
    refine hdriven.size m _ _ (h.mem_written (p := []) ?_ rfl)
    rwa [List.append_nil]
  generalize hlog : (s.log c m).now = now at hstanding hnone hwhole ⊢
  cases hstanding with
  | starting hs _ _ => exact hnone rfl (reads_of_ne (by rw [hs]; decide))
  | waiting hs _ _ _ _ =>
    refine hnone rfl (reads_of_ne ?_)
    rcases hs with hs | hs
    · rw [hs]; decide
    · rw [hs]; decide
  | connected hs _ _ _ _ => exact hnone rfl (reads_of_ne (by rw [hs]; decide))
  | accepted hs _ _ _ => exact hnone rfl (reads_of_ne (by rw [hs]; decide))
  | reading hs _ _ _ heod _ =>
    -- the packet is complete in the FIFO, the word that is read is its next one
    have hphase : (s.after c m).sel.phase (s.after c m).sel.streamPointer = .reading :=
      TxStreamSel.phase_eq_reading.2 ⟨hs, rfl⟩
    have hpending := (h.kept (s.after c m).sel.streamPointer).countP_pending
    rw [hphase] at hpending
    have hpos : 0 < ((s.after c m).streams.fifos (s.after c m).sel.streamPointer).pending.countP
        Dbus.eod := by
      rw [← hpending]
      exact Nat.succ_pos _
    obtain ⟨p, rest, hp, hpend⟩ := exists_isSegment hpos
    have hended : IsSegment Dbus.eod ((s.log c m).now ++ p) := hlog ▸ hp.append heod
    have hmem := h.mem_written hended hpend
    have hsize := hdriven.size m _ _ hmem
    have hreads : (s.after c m).reads.length = 1 := by
      rw [reads, if_pos hs]
      rfl
    have hlen := hp.length_pos
    rw [hlog, List.length_append] at hsize
    rw [List.length_append, hreads]
    omega
  | last hs _ _ _ _ _ hsegment => exact hwhole hsegment (reads_of_ne (by rw [hs]; decide))
  | heading hs _ hsegment _ => exact hwhole hsegment (reads_of_ne (by rw [hs]; decide))

/-! ### Every run -/

/-- **Every cycle is calm** once the registers stay. -/
theorem Relayed.calm (h : Relayed regs s c m) (hdriven : Driven regs s c) (hm : Settled regs c m)
    {stage : Stage} (hstanding : Standing regs stage (s.log c m).now (s.after c m)) :
    Calm regs (s.log c m).now (s.after c m) (c m) where
  ethRegs := by
    obtain ⟨n, hn, hregs⟩ := hm
    exact hregs m hn.le
  request := hdriven.request m
  pseudoHeader := by
    obtain ⟨n, hn, hregs⟩ := hm
    obtain ⟨m, rfl⟩ : ∃ j, m = j + 1 := ⟨m - 1, by omega⟩
    rw [after_succ, ← hregs m (by omega)]
    rfl
  valid hs := (h.kept _).valid (.inr (TxStreamSel.phase_eq_reading.2 ⟨hs, rfl⟩))
  full hs := by
    have hstate := hstanding.moreData hs
    rw [← buffers_after]
    refine h.ringed.not_full fun hquiet => ?_
    rw [buffers_after] at hquiet
    exact absurd (hquiet.state.symm.trans hstate) (by decide)
  size := h.size hdriven hstanding

theorem Relayed.keeps (h : Relayed regs s c m) (hdriven : Driven regs s c)
    (hm : Settled regs c m) {stage : Stage}
    (hstanding : Standing regs stage (s.log c m).now (s.after c m)) : Keeps regs s c m where
  room k := (hdriven.tracked k m).2
  streams := by
    refine ⟨hdriven.request m, fun htakes => ?_⟩
    have hfilling := h.ringed.filling
    rw [buffers_after] at hfilling htakes
    have hlt := hstanding.takes_lt hfilling htakes
    have hsize := h.size hdriven hstanding
    rw [List.length_append] at hsize
    change payload + ((s.watchedAfter c m).ledger.words + 1) ≤ maxReservPktBuf
    omega
  commit hcommit := by
    cases hstanding.step (h.calm hdriven hm hstanding) with
    | on hnot _ _ =>
      rw [hcommit] at hnot
      cases hnot
    | commit _ _ hsegment hreads hleft _ _ => exact ⟨hreads, hsegment, hleft⟩
  pointer := hstanding.pointer_of_ne

/-! ### Before anything is written -/

/-- **Nothing has been written**: both machines wait, and no stream has a packet. -/
structure Blank (s : TxHalf ram P) (c : ℕ → TxHalfInput) (m : ℕ) : Prop where
  sel : (s.after c m).sel.state = .idle
  connected : (s.after c m).sel.connected = false
  tx : (s.after c m).tx.sm.state = .idle
  packet : ∀ k, P.eod.written ((s.after c m).streams.fifos k).eod = []
  now : (s.log c m).now = []

theorem blank_zero : Blank s c 0 := ⟨rfl, rfl, rfl, fun _ => P.eod.written_reset _, rfl⟩

/-- The machines wait for one more cycle, whatever is written in this one. -/
theorem Blank.waits (h : Blank s c m) (hdriven : Driven regs s c) :
    (s.after c (m + 1)).sel.state = .idle ∧ (s.after c (m + 1)).sel.connected = false ∧
      (s.after c (m + 1)).tx.sm.state = .idle ∧ (s.log c (m + 1)).now = [] := by
  have hnone : (List.finRange numUdpPrts).any
      ((s.after c m).streams.selInput ((s.after c m).streamsInput (c m))).packet = false :=
    List.any_eq_false.2 fun k _ hpacket => by
      have hlt := TxFifo.packet_iff.1 hpacket
      have hle := P.eod.seen_le ((s.after c m).streams.fifos k).eod
      rw [h.packet k, List.length_nil] at hle
      omega
  have hcpu : ((s.after c m).txInput (c m)).1.cpuTx.request = false := hdriven.request m
  have hnot : ((s.after c m).txInput (c m)).1.connected = false := h.connected
  have hidle := h.tx
  have hsel : (s.after c (m + 1)).sel.state = .idle ∧
      (s.after c (m + 1)).sel.connected = false := by
    rw [after_succ, sel_step]
    simp [TxStreamSel.step, h.sel, hnone]
  refine ⟨hsel.1, hsel.2, ?_, ?_⟩
  · rw [after_succ, tx_step, TxWriteSide.step]
    simp [TxData2Buf.step, hidle, hcpu, hnot, toIdle]
  · rw [log, TxLog.step, not_commits (by rw [hidle]; decide), if_neg (by decide), h.now,
      reads_of_ne (by rw [h.sel]; decide)]
    rfl

theorem Blank.step (h : Blank s c m) (hdriven : Driven regs s c)
    (hnone : ∀ k, ∀ w ∈ (c m).writes k, w.wrReq = false) : Blank s c (m + 1) := by
  obtain ⟨hsel, hconn, htx, hnow⟩ := h.waits hdriven
  refine ⟨hsel, hconn, htx, fun k => ?_, hnow⟩
  rw [after_succ, ← h.packet k]
  exact TxFifo.written_eod_step (hnone k)

theorem blank_of_le {n : ℕ} (hdriven : Driven regs s c)
    (hnone : ∀ m < n, ∀ k, ∀ w ∈ (c m).writes k, w.wrReq = false) (hm : m ≤ n) : Blank s c m := by
  induction m with
  | zero => exact blank_zero
  | succ m ih => exact (ih (by omega)).step hdriven (hnone m hm)

theorem Blank.standing (h : Blank s c m) (hdriven : Driven regs s c) :
    Standing regs .starting (s.log c (m + 1)).now (s.after c (m + 1)) := by
  obtain ⟨hsel, hconn, htx, hnow⟩ := h.waits hdriven
  rw [hnow]
  exact .starting hsel hconn htx

theorem Blank.keeps (h : Blank s c m) (hdriven : Driven regs s c) : Keeps regs s c m where
  room k := (hdriven.tracked k m).2
  streams := ⟨hdriven.request m, fun htakes => by
    rw [buffers_after, TxBuffers.takes, takes_of_ne (by rw [h.tx]; decide)] at htakes
    cases htakes⟩
  commit hcommit := by
    rw [not_commits (by rw [h.tx]; decide)] at hcommit
    cases hcommit
  pointer hne := by
    rw [h.now, reads_of_ne (by rw [h.sel]; decide)] at hne
    exact absurd rfl hne

/-- In every cycle nothing has been written yet, or the registers stay. -/
theorem Driven.blank_or_settled (h : Driven regs s c) (m : ℕ) :
    Blank s c m ∨ Settled regs c m := by
  obtain ⟨n, hnone, hregs⟩ := h.ethRegs
  rcases Nat.lt_or_ge n m with hlt | hge
  · exact Or.inr ⟨n, hlt, hregs⟩
  · exact Or.inl (blank_of_le h hnone hge)

/-- **Every run relays**, and from the second cycle on the machines stand
somewhere with a packet. -/
theorem relayed (hdriven : Driven regs s c) (m : ℕ) :
    Relayed regs s c m ∧
      (0 < m → ∃ stage, Standing regs stage (s.log c m).now (s.after c m)) := by
  induction m with
  | zero => exact ⟨relayed_zero, fun h => absurd h (Nat.lt_irrefl 0)⟩
  | succ m ih =>
    obtain ⟨hrelayed, hstanding⟩ := ih
    rcases hdriven.blank_or_settled m with hblank | hsettled
    · exact ⟨hrelayed.step (hblank.keeps hdriven), fun _ => ⟨_, hblank.standing hdriven⟩⟩
    · obtain ⟨n, hn, -⟩ := id hsettled
      obtain ⟨stage, hstage⟩ := hstanding (Nat.zero_lt_of_lt hn)
      refine ⟨hrelayed.step (hrelayed.keeps hdriven hsettled hstage), fun _ => ?_⟩
      rw [after_succ, log, TxLog.step]
      cases hstage.step (hrelayed.calm hdriven hsettled hstage) with
      | on hnot _ hnext =>
        rw [hnot, if_neg (by decide)]
        exact ⟨_, hnext⟩
      | commit hcommit _ _ _ _ _ hnext =>
        rw [hcommit, if_pos rfl]
        exact ⟨_, hnext⟩

end Relayed

end TxHalf

/-! ## What the MAC gets -/

/-- **The beginning of a list of frames**: some whole ones, and perhaps a
part of the next. -/
def Begun {α : Type} (sent rest bs : List (List α)) : Prop :=
  bs = sent ∨ ∃ f ∈ rest.head?, ∃ w, w <+: f ∧ w ≠ f ∧ bs = sent ++ [w]

/-- A frame as the fabric carries it, behind its status word. -/
def onFabric (wrf : WrFabric) (frame : List Word) : List FabricWord :=
  (wrf.wrfStatus, 0x0204) :: frame.map fun w => (wrf.wrfData, w)

theorem FramesOf.begun {wrf : WrFabric} {sent rest : List TxPacket} {bs : List (List FabricWord)}
    (h : FramesOf wrf sent rest bs) :
    Begun ((sent.map TxPacket.words).map (onFabric wrf))
      ((rest.map TxPacket.words).map (onFabric wrf)) bs := by
  have hsame : ∀ ps : List TxPacket,
      (ps.map TxPacket.words).map (onFabric wrf) = ps.map (TxPacket.frame wrf) := fun ps => by
    rw [List.map_map]
    rfl
  rw [hsame, hsame]
  rcases h with h | ⟨p, hp, w, hw, hne, h⟩
  · exact Or.inl h
  · refine Or.inr ⟨p.frame wrf, ?_, w, hw, hne, h⟩
    rw [List.head?_map, hp]
    rfl

namespace TxHalf

section Carried

variable {wrf : WrFabric} {regs : EthRegs} {s : TxHalf ram P} {c : ℕ → TxHalfInput} {m : ℕ}

/-- **What the MAC gets**: each packet of `sent` in a cycle of `cyc` of its
own, as its frame, and perhaps the beginning of the next; and the packets of
each stream are the first ones that were written to it, in their order. -/
structure Carried (wrf : WrFabric) (regs : EthRegs) (s : TxHalf ram P) (c : ℕ → TxHalfInput) (m : ℕ)
    (sent rest : List (Fin numUdpPrts × List Dbus)) : Prop where
  begun : Begun ((sent.map (frameOf regs)).map (onFabric wrf))
    ((rest.map (frameOf regs)).map (onFabric wrf)) (TxBuffers.bursts wrf (s.buffersCycles c m)).all
  transfers : TxBuffers.transfers wrf (s.buffersCycles c m) =
    (TxBuffers.bursts wrf (s.buffersCycles c m)).all.flatten
  inOrder : ∀ k, ofStream k (sent ++ rest) <+: s.written c m k

theorem streamsOnly (hdriven : Driven regs s c) (m : ℕ) :
    Watched.StreamsOnly (s.watched.after (s.buffersInputs c) m, s.buffersInputs c m) := by
  obtain ⟨hrelayed, hstanding⟩ := relayed hdriven m
  rcases hdriven.blank_or_settled m with hblank | hsettled
  · exact (hblank.keeps hdriven).streams
  · obtain ⟨n, hn, -⟩ := id hsettled
    obtain ⟨_, hstage⟩ := hstanding (Nat.zero_lt_of_lt hn)
    exact (hrelayed.keeps hdriven hsettled hstage).streams

/-- **What is committed is carried**, frame by frame. -/
theorem carried (hdriven : Driven regs s c) (wrf : WrFabric) (m : ℕ) :
    ∃ sent rest, (s.log c m).done = sent ++ rest ∧ Carried wrf regs s c m sent rest ∧
      ((s.after c m).buffers.empty = true ↔ rest = []) := by
  obtain ⟨hrelayed, -⟩ := relayed hdriven m
  obtain ⟨sent, rest, hpackets, hframes, htransfers, hempty⟩ :=
    Watched.framesOf_cycles (streamsOnly hdriven) wrf m
  have hcommitted := hrelayed.committed
  rw [show TxBuffers.packets (s.buffersCycles c m) = _ from hpackets, List.map_append] at hcommitted
  obtain ⟨sent', rest', hdone, hsent, hrest⟩ := List.map_eq_append_iff.1 hcommitted.symm
  refine ⟨sent', rest', hdone, ⟨?_, htransfers, fun k => ?_⟩, ?_⟩
  · rw [hsent, hrest]
    exact hframes.begun
  · rw [← hdone, hrelayed.written_eq]
    exact List.prefix_append _ _
  · rw [← buffers_after]
    refine hempty.trans ?_
    rw [← List.map_eq_nil_iff (f := frameOf regs), hrest, List.map_eq_nil_iff]

end Carried

end TxHalf

end Ipmux

end WrCalibration
