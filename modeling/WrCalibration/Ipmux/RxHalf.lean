import Mathlib.Data.Finset.Lattice.Fold
import Mathlib.Data.Fintype.Basic
import WrCalibration.Common.FifoCycles
import WrCalibration.Ipmux.CpuReceive
import WrCalibration.Ipmux.RxDelivery
import WrCalibration.Ipmux.RxStreams

/-!
# The receive half

The receive buffers with the FIFOs of the streams behind them (`rxfifos`),
whose readers have clocks of their own and take their words out one by one. A
full flag goes up some words before its FIFO is full, and one more word may be
on its way by then (`heeding`), so no word of a stream is lost in its FIFO.
What the readers get of the frames follows from what the streams are written.
-/

namespace WrCalibration

namespace Ipmux

open Clocked GenericDpram AsyncFifo

/-- `RxBuffers` and `rxfifos`, as `ipmux` connects them. -/
structure RxHalf (ram : GenericDpram rxPktBufAdrsize 17) (F : RxFifo) where
  buffers : RxBuffers ram
  fifos : Fin (numUdpPrts + 1) → F.State

/-- The inputs of a cycle: the fabric, what the readers ask for at the edges of
their clocks that fall into it, and what the registers say. -/
structure RxHalfInput where
  snk : SnkInput
  rdReq : Fin (numUdpPrts + 1) → List Bool := fun _ => []
  flush : Streams := fun _ => false
  ethRegs : EthRegs
  pauseAck : Bool := false

variable {ram : GenericDpram rxPktBufAdrsize 17} {F : RxFifo}

namespace RxHalf

variable (wrf : WrFabric) (s : RxHalf ram F) (c : RxHalfInput)

/-- `Full` -/
def full : Streams := fun k => F.almostFull (s.fifos k)

/-- What `RxBuffers` sees. -/
def buffersInput : RxBuffersInput where
  snk := c.snk
  full := s.full
  ethRegs := c.ethRegs
  pauseAck := c.pauseAck

/-- `WrReq` and `RXo` of a stream. -/
def rxo (k : Fin (numUdpPrts + 1)) : Bool × Dbus :=
  rxStreamSel s.buffers.sm (packetData s.buffers.readSide.q) (packetEop s.buffers.readSide.q) k

/-- What the FIFO of a stream sees. -/
def fifoCycle (k : Fin (numUdpPrts + 1)) : FifoCycle Dbus where
  we := (s.rxo k).1
  d := (s.rxo k).2
  rds := c.rdReq k

/-- **One cycle**; a FIFO is held in reset while it is flushed. -/
def step : RxHalf ram F where
  buffers := s.buffers.step wrf (s.buffersInput c)
  fifos k := if c.flush k then F.reset (s.fifos k) else F.cycle (s.fifos k) (s.fifoCycle c k)

/-- A reset of the machines and of the FIFOs. -/
def reset : RxHalf ram F where
  buffers := s.buffers.reset
  fifos k := F.reset (s.fifos k)

/-- The words that the reader of a stream takes in a cycle. -/
def taken (k : Fin (numUdpPrts + 1)) (x : RxHalf ram F × RxHalfInput) : List Dbus :=
  F.poppedIn (x.1.fifos k) (x.1.fifoCycle x.2 k)

/-! ## A run -/

section Run

variable (c : ℕ → RxHalfInput) (m : ℕ) (k : Fin (numUdpPrts + 1))

/-- The state after some cycles from a reset. -/
def after : RxHalf ram F := run (step wrf) s.reset (upTo c m)

/-- What the receive buffers see, cycle by cycle. -/
def buffersInputs : RxBuffersInput := (s.after wrf c m).buffersInput (c m)

/-- What the FIFO of a stream sees. -/
def fifoCycles : FifoCycle Dbus := (s.after wrf c m).fifoCycle (c m) k

/-- What the reader of a stream has got by then. -/
def read : List Dbus := (trace (step wrf) s.reset (upTo c m)).flatMap (taken k)

variable {wrf s c m k}

theorem after_succ : s.after wrf c (m + 1) = (s.after wrf c m).step wrf (c m) := run_upTo_succ

theorem buffers_after : (s.after wrf c m).buffers =
    run (RxBuffers.step wrf) s.buffers.reset (upTo (s.buffersInputs wrf c) m) := by
  induction m with
  | zero => rfl
  | succ m ih =>
    rw [after_succ, run_upTo_succ, ← ih]
    rfl

theorem read_succ : s.read wrf c (m + 1) k =
    s.read wrf c m k ++ taken k (s.after wrf c m, c m) := by
  rw [read, trace_upTo_succ, List.flatMap_append, List.flatMap_singleton]
  rfl

theorem received_succ : received wrf s.buffers (s.buffersInputs wrf c) (m + 1) k =
    received wrf s.buffers (s.buffersInputs wrf c) m k ++ (s.fifoCycles wrf c m k).offered := by
  rw [received, filterMap_trace_upTo_succ, ← buffers_after, ← received]
  congr 1
  change (if ((s.after wrf c m).rxo k).1 then some ((s.after wrf c m).rxo k).2 else none).toList = _
  rw [FifoCycle.offered, fifoCycles, fifoCycle]
  split <;> rfl

/-- What a stream is written goes to its FIFO. -/
theorem received_eq_offeredBy (m : ℕ) : received wrf s.buffers (s.buffersInputs wrf c) m k =
    offeredBy (fun m => s.fifoCycles wrf c m k) m := by
  induction m with
  | zero => rfl
  | succ m ih => rw [received_succ, offeredBy_succ, ih]

end Run

/-! ## The FIFOs -/

section Stored

variable {wrf} {s : RxHalf ram F} {c : ℕ → RxHalfInput} {m : ℕ}

/-- **What the registers are like**: no two streams have one port, and no FIFO
is flushed. -/
structure Configured (c : ℕ → RxHalfInput) : Prop where
  ports : ∀ m, Function.Injective (c m).ethRegs.udpModPrt
  flush : ∀ m k, (c m).flush k = false

theorem portChecked_of_injective {sm : RxBuf2Data} {regs : EthRegs}
    (h : Function.Injective regs.udpModPrt) : PortChecked sm regs := by
  intro _ _ k k' hk hk'
  rw [RxBuf2Data.portStreams, decide_eq_true_iff] at hk hk'
  exact h (hk.trans hk'.symm)

section Configured

variable (hc : Configured c) (k : Fin (numUdpPrts + 1))

include hc

/-- The FIFO of a stream runs on its own. -/
theorem fifos_after (m : ℕ) : (s.after wrf c m).fifos k =
    F.after (F.reset (s.fifos k)) (fun m => s.fifoCycles wrf c m k) m := by
  induction m with
  | zero => rfl
  | succ m ih =>
    rw [after_succ, AsyncFifo.after_succ, ← ih]
    exact if_neg (Bool.eq_false_iff.1 (hc.flush m k))

theorem read_eq_got (m : ℕ) : s.read wrf c m k =
    F.got (F.reset (s.fifos k)) (fun m => s.fifoCycles wrf c m k) m := by
  induction m with
  | zero => rfl
  | succ m ih =>
    rw [read_succ, got_succ, ih, ← fifos_after hc]
    rfl

theorem selecting_after (m : ℕ) : Selecting (s.after wrf c m).buffers.sm := by
  induction m with
  | zero => exact selecting_initialise _
  | succ m ih =>
    rw [after_succ]
    exact ih.step (portChecked_of_injective (hc.ports m))

/-- **A word is scheduled only for a stream whose flag is down.** -/
theorem heeding : Heeding F (F.reset (s.fifos k)) (fun m => s.fifoCycles wrf c m k) where
  written := F.written_reset _
  first := Bool.and_false _
  next m hwe := by
    change ((s.after wrf c (m + 1)).rxo k).1 = true at hwe
    rw [← fifos_after hc]
    rw [after_succ] at hwe
    obtain ⟨hstream, hreq⟩ := Bool.and_eq_true_iff.1 hwe
    exact (selecting_after hc m).written hreq hstream

variable (hslack : rxFifoThreshold + F.slack < rxFifoSize)

include hslack

theorem read_append_held (m : ℕ) :
    s.read wrf c m k ++ F.held ((s.after wrf c m).fifos k) =
      received wrf s.buffers (s.buffersInputs wrf c) m k := by
  rw [read_eq_got hc, fifos_after hc, received_eq_offeredBy]
  exact (heeding hc k).got_append_held hslack m

end Configured

/-- **No word is lost in a FIFO**, whatever the fabric carries: with ports that
differ, the words that were written to a stream are those that its reader has
got, in their order, and behind them those in its FIFO, which is never full as
long as its flag is not too late. -/
theorem loses_none (hslack : rxFifoThreshold + F.slack < rxFifoSize) (hc : Configured c) (m : ℕ)
    (k : Fin (numUdpPrts + 1)) :
    received wrf s.buffers (s.buffersInputs wrf c) m k =
        s.read wrf c m k ++ F.held ((s.after wrf c m).fifos k) ∧
      (F.held ((s.after wrf c m).fifos k)).length ≤ rxFifoThreshold + F.slack + 1 := by
  refine ⟨(read_append_held hc k hslack m).symm, ?_⟩
  rw [fifos_after hc]
  exact (heeding hc k).length_held_le hslack m

end Stored

/-! ## Frames on the fabric -/

section Frames

variable {wrf : WrFabric} {regs : EthRegs} {lead : ℕ} {frames : List (FabricFrame wrf)}
  {s : RxHalf ram F} {c : ℕ → RxHalfInput} {m : ℕ}

/-- **A run over some frames**, and then nothing: before the first one the
registers come to their values and keep them, no two streams have one port, and
no FIFO is flushed. -/
structure Playing (regs : EthRegs) (lead : ℕ) (frames : List (FabricFrame wrf))
    (c : ℕ → RxHalfInput) : Prop where
  before : ∀ m < lead, (c m).snk.cyc = false
  fabric : (upTo (fun i => c (lead + i)) (fabricCycles frames).length).map RxHalfInput.snk =
    fabricCycles frames
  quiet : ∀ m, fabricTime lead frames ≤ m → (c m).snk.cyc = false
  ports : Function.Injective regs.udpModPrt
  regs_eq : ∀ m, lead ≤ m → (c m).ethRegs = regs
  flush : ∀ m k, (c m).flush k = false

/-- **Readers that ask for a word in every cycle.** -/
def Asking (c : ℕ → RxHalfInput) : Prop := ∀ m k, true ∈ (c m).rdReq k

/-- No word of the frames meets the full flag of the packet buffer. -/
def Kept (wrf : WrFabric) (s : RxHalf ram F) (c : ℕ → RxHalfInput) (m : ℕ) : Prop :=
  ∀ x ∈ trace (RxBuffers.step wrf) s.buffers.reset (upTo (s.buffersInputs wrf c) m),
    RxBuffers.overflow wrf x = false

/-! ### The registers from the beginning -/

/-- The inputs, with the registers as they come to be. -/
def settle (regs : EthRegs) (c : ℕ → RxHalfInput) (m : ℕ) : RxHalfInput :=
  { c m with ethRegs := regs }

theorem settle_eq (h : (c m).ethRegs = regs) : settle regs c m = c m := by
  rw [settle, ← h]

section Settle

variable (h : Playing regs lead frames c)

include h

/-- **Before the frames the registers make no difference.** -/
theorem after_settle (m : ℕ) : s.after wrf (settle regs c) m = s.after wrf c m := by
  induction m with
  | zero => rfl
  | succ m ih =>
    rw [after_succ, after_succ, ih]
    rcases Nat.lt_or_ge m lead with hlt | hge
    · have hsteady : ∀ m, Steady regs [] (s.buffersInputs wrf (settle regs c) m) := fun _ =>
        ⟨rfl, nofun, nofun, nofun⟩
      have hquiet : ∀ i < m, (s.buffersInputs wrf (settle regs c) i).snk.cyc = false :=
        fun i hi => h.before i (hi.trans hlt)
      have hsettling : Settling wrf regs [] 0 (fun _ => []) (run (RxBuffers.step wrf)
          s.buffers.reset (upTo (s.buffersInputs wrf (settle regs c)) m)) :=
        (settling_lead hquiet hsteady).1
      rw [← buffers_after, ih] at hsettling
      have hbuffers : (s.after wrf c m).buffers.step wrf ((s.after wrf c m).buffersInput (c m)) =
          (s.after wrf c m).buffers.step wrf
            ((s.after wrf c m).buffersInput (settle regs c m)) := hsettling.step_of_eq rfl rfl
      rw [step, step, hbuffers]
      rfl
    · rw [settle_eq (h.regs_eq m hge)]

theorem read_settle (m : ℕ) (k : Fin (numUdpPrts + 1)) :
    s.read wrf (settle regs c) m k = s.read wrf c m k := by
  induction m with
  | zero => rfl
  | succ m ih =>
    rw [read_succ, read_succ, ih, after_settle h]
    rfl

theorem kept_settle : Kept wrf s (settle regs c) m ↔ Kept wrf s c m := by
  induction m with
  | zero => rfl
  | succ m ih =>
    rw [Kept, Kept, trace_upTo_succ, trace_upTo_succ, List.forall_mem_append,
      List.forall_mem_append, List.forall_mem_singleton, List.forall_mem_singleton,
      ← buffers_after, ← buffers_after, after_settle h]
    refine and_congr ih ?_
    rw [buffersInputs, buffersInputs, after_settle h]
    rfl

theorem Playing.configured : Configured (RxHalf.settle regs c) where
  ports _ := h.ports
  flush := h.flush

theorem Playing.carries : Carries lead frames (s.buffersInputs wrf (RxHalf.settle regs c)) where
  before := h.before
  fabric := by
    have hfabric := h.fabric
    rw [map_upTo] at hfabric ⊢
    exact hfabric
  quiet := h.quiet

theorem Playing.steady (hlegible : ∀ frame ∈ frameWords frames, Legible regs frame)
    (hroom : ∀ m, ∀ frame ∈ frameWords frames, RoomForPadding regs frame (s.after wrf c m).full)
    (m : ℕ) : Steady regs (frameWords frames) (s.buffersInputs wrf (RxHalf.settle regs c) m) where
  regs_eq := rfl
  legible := hlegible
  onePort _ _ := onePort_of_injective h.ports
  padding frame hf := by
    rw [buffersInputs, after_settle h]
    exact hroom m frame hf

theorem Playing.full (hslack : rxFifoThreshold + F.slack < rxFifoSize)
    (hdelay : 3 * F.delay + 1 < rxFifoThreshold) (hasks : Asking c) (m : ℕ)
    (k : Fin (numUdpPrts + 1)) : (s.after wrf c m).full k = false := by
  rw [← after_settle h, RxHalf.full, fifos_after h.configured]
  exact (heeding h.configured k).almostFull_of_asking hslack (hasks · k) rfl hdelay m

end Settle

/-! ### What the readers get -/

section Reading

variable (h : Playing regs lead frames c)
  (hlegible : ∀ frame ∈ frameWords frames, Legible regs frame)
  (hslack : rxFifoThreshold + F.slack < rxFifoSize)

include h hlegible hslack

section Kept

variable (hkept : Kept wrf s c (fabricTime lead frames))
  (hroom : ∀ m, ∀ frame ∈ frameWords frames, RoomForPadding regs frame (s.after wrf c m).full)

include hkept hroom

theorem read_isPrefix (m : ℕ) (k : Fin (numUdpPrts + 1)) :
    s.read wrf c m k <+: deliveries regs (frameWords frames) k := by
  have hwritten := received_isPrefix h.carries (h.steady hlegible hroom)
    ((kept_settle h).2 hkept) m k
  rw [← read_append_held h.configured k hslack m, read_settle h] at hwritten
  exact (List.prefix_append _ _).trans hwritten

theorem exists_read_eq (hreads : ∀ k N, ∃ m, N ≤ m ∧ true ∈ (c m).rdReq k) :
    ∃ M, ∀ m, M ≤ m → ∀ k, s.read wrf c m k = deliveries regs (frameWords frames) k := by
  have hall : ∀ k, Heeding F (F.reset (s.fifos k)) fun m => s.fifoCycles wrf (settle regs c) m k :=
    heeding h.configured
  obtain ⟨M, hM⟩ := exists_received h.carries (h.steady hlegible hroom)
    ((kept_settle h).2 hkept) fun k N => by
      obtain ⟨m, hm, hflag⟩ := (hall k).exists_room hslack (hreads k) (by decide) N
      rw [← fifos_after h.configured] at hflag
      exact ⟨m, hm, hflag⟩
  -- each reader has a time of its own
  choose N hN using fun k => (hall k).exists_got hslack (hreads k) fun m hm => by
    rw [← received_eq_offeredBy]
    exact hM m hm k
  refine ⟨Finset.univ.sup N, fun m hm k => ?_⟩
  rw [← read_settle h, read_eq_got h.configured]
  exact hN k m ((Finset.le_sup (Finset.mem_univ k)).trans hm)

end Kept

/-- **What the readers get.** Where no word of the frames meets the full flag of
the packet buffer, and a stream with padded frames has room, what a reader has
got at any time is the beginning of what is its own of each frame, in the order
of the frames; and if each reader comes again and again, there is a time from
which on it has got all of that. -/
theorem hands_over (hkept : Kept wrf s c (fabricTime lead frames))
    (hroom : ∀ m, ∀ frame ∈ frameWords frames,
      RoomForPadding regs frame (s.after wrf c m).full) :
    (∀ m k, s.read wrf c m k <+: deliveries regs (frameWords frames) k) ∧
    ((∀ k N, ∃ m, N ≤ m ∧ true ∈ (c m).rdReq k) →
      ∃ M, ∀ m, M ≤ m → ∀ k, s.read wrf c m k = deliveries regs (frameWords frames) k) :=
  ⟨read_isPrefix h hlegible hslack hkept hroom, exists_read_eq h hlegible hslack hkept hroom⟩

section Asking

variable (hdelay : 3 * F.delay + 1 < rxFifoThreshold) (hasks : Asking c)

include hdelay hasks

omit hlegible in
theorem roomForPadding_of_asking (m : ℕ) : ∀ frame ∈ frameWords frames,
    RoomForPadding regs frame (s.after wrf c m).full := by
  intro _ _ j _ hj
  rw [h.full hslack hdelay hasks m j.castSucc] at hj
  cases hj

theorem steady_of_asking (m : ℕ) :
    Steady regs (frameWords frames) (s.buffersInputs wrf (settle regs c) m) :=
  h.steady hlegible (roomForPadding_of_asking h hslack hdelay hasks) m

variable (hpace : ∀ f ∈ frames, passLength regs f.words ≤ f.cycles.length)

include hpace

omit hlegible in
theorem paced_of_asking (m : ℕ) :
    Paced regs frames (upTo (s.buffersInputs wrf (settle regs c)) m) := by
  refine paced_upTo (fun m k => ?_) hpace m
  rw [buffersInputs, after_settle h]
  exact h.full hslack hdelay hasks m k

theorem kept_of_asking (m : ℕ) : Kept wrf s c m :=
  (kept_settle h).1 (overflow_of_paced h.carries
    (steady_of_asking h hlegible hslack hdelay hasks)
    (paced_of_asking h hslack hdelay hasks hpace) m)

theorem read_eq_of_asking (hm : fabricTime lead frames + backlog + F.delay < m)
    (k : Fin (numUdpPrts + 1)) :
    s.read wrf c m k = deliveries regs (frameWords frames) k := by
  have hwritten : ∀ j, fabricTime lead frames + backlog ≤ j →
      offeredBy (fun m => s.fifoCycles wrf (settle regs c) m k) j =
        deliveries regs (frameWords frames) k := fun j hj => by
    rw [← received_eq_offeredBy]
    exact received_eq_of_paced h.carries (steady_of_asking h hlegible hslack hdelay hasks)
      (paced_of_asking h hslack hdelay hasks hpace) hj k
  have hnow := hwritten (fabricTime lead frames + backlog) le_rfl
  rw [← read_settle h, read_eq_got h.configured, ← hnow]
  refine (heeding h.configured k).got_of_asking hslack (hasks · k) hm ?_
  rw [hnow, hwritten m (by omega)]

end Asking

/-- **In time.** With readers that ask for a word in every cycle, FIFOs that show
it before many more have come, and frames that take as many cycles on the fabric
as their passes, no word is lost on the way, and each reader has got all that is
its own some cycles after the last frame. -/
theorem in_time (hdelay : 3 * F.delay + 1 < rxFifoThreshold) (hasks : Asking c)
    (hpace : ∀ f ∈ frames, passLength regs f.words ≤ f.cycles.length) :
    (∀ m, Kept wrf s c m) ∧ ∀ m, fabricTime lead frames + backlog + F.delay < m → ∀ k,
      s.read wrf c m k = deliveries regs (frameWords frames) k :=
  ⟨kept_of_asking h hlegible hslack hdelay hasks hpace, fun _ hm k =>
    read_eq_of_asking h hlegible hslack hdelay hasks hpace hm k⟩

end Reading

/-- Frames on the fabric, with the registers, and readers that come now and
then. -/
def play (regs : EthRegs) (rdReq : ℕ → Fin (numUdpPrts + 1) → List Bool)
    (frames : List (FabricFrame wrf)) (m : ℕ) : RxHalfInput where
  snk := (fabricCycles frames).getD m {}
  rdReq := rdReq m
  ethRegs := regs

theorem playing_play (hports : Function.Injective regs.udpModPrt)
    (rdReq : ℕ → Fin (numUdpPrts + 1) → List Bool) (frames : List (FabricFrame wrf)) :
    Playing regs 0 frames (play regs rdReq frames) where
  before m hm := absurd hm (Nat.not_lt_zero m)
  fabric := by
    simp only [Nat.zero_add]
    rw [map_upTo]
    exact upTo_getD _ _
  quiet m hm := by
    rw [fabricTime, Nat.zero_add] at hm
    change ((fabricCycles frames).getD m {}).cyc = false
    rw [List.getD_eq_default _ _ hm]
  ports := hports
  regs_eq _ _ := rfl
  flush _ _ := rfl

/-! A frame for stream 1, and readers of three kinds. -/

/-- The FIFO of a stream, with two registers on each way. -/
abbrev syncedRxFifo : RxFifo := AsyncFifo.synced Dbus rxFifoSize rxFifoThreshold 2

/-- Nothing in the FIFOs and in the buffer. -/
def sampleRxHalf : RxHalf (array rxPktBufAdrsize 17) syncedRxFifo where
  buffers := sampleBuffers
  fifos _ := AsyncFifo.Synced.filled [] { d := 0, eod := false }

/-- The frame, with readers. -/
def samplePlay (rdReq : ℕ → Fin (numUdpPrts + 1) → List Bool) : ℕ → RxHalfInput :=
  play sampleReadCycle.ethRegs rdReq [samplePayloadFrame]

theorem frameWords_sample : frameWords [samplePayloadFrame] = [sampleUdp []] := by
  simp [frameWords, samplePayloadFrame]

theorem injective_sampleReadCycle : Function.Injective sampleReadCycle.ethRegs.udpModPrt := by
  decide

theorem playing_sample (rdReq : ℕ → Fin (numUdpPrts + 1) → List Bool) :
    Playing sampleReadCycle.ethRegs 0 [samplePayloadFrame] (samplePlay rdReq) :=
  playing_play injective_sampleReadCycle rdReq _

theorem margin_sample : rxFifoThreshold + syncedRxFifo.slack < rxFifoSize := by
  rw [show syncedRxFifo.slack = 0 from rfl]
  decide

/-- Nobody reads, -/
theorem loses_none_sample :
    (syncedRxFifo.held ((sampleRxHalf.after sampleFabric (samplePlay fun _ _ => []) 100).fifos
      1)).length ≤ rxFifoThreshold + syncedRxFifo.slack + 1 :=
  (loses_none margin_sample ⟨fun _ => injective_sampleReadCycle, fun _ _ => rfl⟩ 100 1).2

/-- in every second cycle, -/
theorem hands_over_sample : ∃ M, ∀ m, M ≤ m →
    sampleRxHalf.read sampleFabric (samplePlay fun m _ => [m % 2 == 1]) m 1 =
      [{ d := 0xA1, eod := false }, { d := 0xA2, eod := true }] := by
  have hplaying := playing_sample fun m _ => [m % 2 == 1]
  have hroom : ∀ m, ∀ frame ∈ frameWords [samplePayloadFrame],
      RoomForPadding sampleReadCycle.ethRegs frame
        (sampleRxHalf.after sampleFabric (samplePlay fun m _ => [m % 2 == 1]) m).full := by
    intro m frame hframe j hj _
    rw [frameWords_sample, List.mem_singleton] at hframe
    subst hframe
    decide +kernel
  obtain ⟨-, hall⟩ := hands_over hplaying (steady_busy 0).legible margin_sample
    (kept_singleton hplaying.carries (hplaying.steady (steady_busy 0).legible hroom)) hroom
  obtain ⟨M, hM⟩ := hall fun k N => ⟨2 * N + 1, by omega, by simp [samplePlay, play]⟩
  refine ⟨M, fun m hm => ?_⟩
  rw [hM m hm 1, frameWords_sample]
  decide +kernel

/-- and in every one. -/
theorem in_time_sample :
    sampleRxHalf.read sampleFabric (samplePlay fun _ _ => [true])
        (fabricTime 0 [samplePayloadFrame] + backlog + syncedRxFifo.delay + 1) 1 =
      [{ d := 0xA1, eod := false }, { d := 0xA2, eod := true }] := by
  have hpace : ∀ f ∈ [samplePayloadFrame],
      passLength sampleReadCycle.ethRegs f.words ≤ f.cycles.length := by decide +kernel
  rw [(in_time (s := sampleRxHalf) (playing_sample fun _ _ => [true]) (steady_busy 0).legible
    margin_sample (by decide) (fun _ _ => List.mem_singleton.2 rfl) hpace).2 _
      (Nat.lt_succ_self _) 1, frameWords_sample]
  decide +kernel

end Frames

end RxHalf

end Ipmux

end WrCalibration
