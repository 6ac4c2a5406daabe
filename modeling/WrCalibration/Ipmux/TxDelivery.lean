import WrCalibration.Ipmux.TxRing
import WrCalibration.Ipmux.TxSending

/-!
# What the transmit buffers send

The reader with its promises stays with the closed machine
(`following_after`), so that machine does what the reader does against any
write side: every packet that is committed goes out, whole, once, and in its
turn (`transmit`).
-/

namespace WrCalibration

namespace Ipmux

open Clocked GenericDpram TxData2Buf RecordRing

variable {ram : GenericDpram txPktBufAdrsize 17} {wrf : WrFabric}

/-! ## The run of both -/

namespace TxBuffers

/-- `src_o` -/
def srcO (s : TxBuffers ram) (wrf : WrFabric) : SrcOutput :=
  s.mac.srcO wrf (packetData (ram.qb s.tx.buffer))

variable (wrf : WrFabric) (xs : List (TxBuffers ram × TxBuffersInput))

/-- The words that the MAC takes. -/
def transfers : List FabricWord :=
  xs.filterMap fun x => (x.1.srcO wrf).transfer x.2.stall

/-- The cycles of `cyc`. -/
def bursts : Bursts := xs.foldl (fun b x => b.step (x.1.srcO wrf) x.2.stall) {}

/-- The packets that are committed. -/
def packets : List TxPacket := xs.filterMap fun x => x.1.packet x.2

end TxBuffers

namespace Watched

variable (w : Watched ram) (c : ℕ → TxBuffersInput) (m : ℕ)

/-- The state after some cycles from a reset. -/
def after : Watched ram := run step w.reset (upTo c m)

/-- The cycles themselves, of the buffers alone. -/
def cycles : List (TxBuffers ram × TxBuffersInput) :=
  trace TxBuffers.step w.buffers.reset (upTo c m)

/-- What the reader sees, cycle by cycle. -/
def supplies : TxReadInput := (w.after c m).buffers.supply (c m)

/-- The reader of the machine, in a run of its own. -/
def reader : TxReadSide ram := TxReadSide.after w.buffers.tx.buffer 0 [] (w.supplies c) m

@[inherit_doc reader]
def readerCycles : List (TxReadSide ram × TxReadInput) :=
  TxReadSide.cycles w.buffers.tx.buffer 0 [] (w.supplies c) m

variable {w c m}

theorem after_succ : w.after c (m + 1) = (w.after c m).step (c m) := run_upTo_succ

theorem buffers_after : (w.after c m).buffers = run TxBuffers.step w.buffers.reset (upTo c m) := by
  induction m with
  | zero => rfl
  | succ m ih =>
    rw [after_succ, run_upTo_succ, ← ih]
    rfl

theorem cycles_succ : w.cycles c (m + 1) = w.cycles c m ++ [((w.after c m).buffers, c m)] := by
  rw [buffers_after]
  exact trace_upTo_succ

theorem reader_succ : w.reader c (m + 1) = (w.reader c m).step (w.supplies c m) :=
  TxReadSide.after_succ

theorem readerCycles_succ : w.readerCycles c (m + 1) =
    w.readerCycles c m ++ [(w.reader c m, w.supplies c m)] := TxReadSide.cycles_succ

section StreamsOnly

variable (h : ∀ m, StreamsOnly (w.after c m, c m))

include h

theorem ringed_after (m : ℕ) : Ringed (w.after c m) := by
  induction m with
  | zero => exact ringed_reset w
  | succ m ih =>
    rw [after_succ]
    exact ih.step (h m)

/-- **The reader stays with the machine.** -/
theorem following_after (m : ℕ) : Following (w.after c m) (w.reader c m) := by
  induction m with
  | zero => exact ⟨rfl, rfl, rfl, rfl⟩
  | succ m ih =>
    rw [after_succ, reader_succ]
    exact ih.step (ringed_after h m) (h m)

theorem fed_supplies : TxReadSide.Fed w.buffers.tx.buffer 0 [] (w.supplies c) where
  held _ hk := absurd hk (Nat.not_lt_zero _)
  room := by decide
  supplied m := (following_after h m).supplied (ringed_after h m) (h m)

/-- What goes out is what the reader sends. -/
theorem srcO_after (wrf : WrFabric) (m : ℕ) : (w.after c m).buffers.srcO wrf =
    TxReadSide.srcO wrf (w.reader c m, w.supplies c m) := by
  have hfollow := following_after h m
  rw [TxBuffers.srcO, TxReadSide.srcO, hfollow.mac, hfollow.buffer]

theorem bursts_cycles (wrf : WrFabric) (m : ℕ) :
    TxBuffers.bursts wrf (w.cycles c m) = TxReadSide.bursts wrf (w.readerCycles c m) := by
  induction m with
  | zero => rfl
  | succ m ih =>
    rw [cycles_succ, readerCycles_succ, TxReadSide.bursts_concat, TxBuffers.bursts,
      List.foldl_append, ← TxBuffers.bursts, ih, ← srcO_after h wrf m]
    rfl

theorem transfers_cycles (wrf : WrFabric) (m : ℕ) :
    TxBuffers.transfers wrf (w.cycles c m) = TxReadSide.transfers wrf (w.readerCycles c m) := by
  induction m with
  | zero => rfl
  | succ m ih =>
    rw [readerCycles_succ, TxReadSide.transfers_concat, ← ih, ← srcO_after h wrf m, buffers_after,
      TxBuffers.transfers, cycles, filterMap_trace_upTo_succ]
    rfl

omit h in
theorem committed_supplies (m : ℕ) :
    TxReadSide.committed [] (w.supplies c) m = TxBuffers.packets (w.cycles c m) := by
  induction m with
  | zero => rfl
  | succ m ih =>
    rw [TxReadSide.committed_succ, ih, TxBuffers.packets, TxBuffers.packets, cycles, cycles,
      filterMap_trace_upTo_succ, ← buffers_after]
    rfl

/-- **What has gone** at any time. -/
theorem framesOf_cycles (wrf : WrFabric) (m : ℕ) : ∃ sent rest,
    TxBuffers.packets (w.cycles c m) = sent ++ rest ∧
      FramesOf wrf sent rest (TxBuffers.bursts wrf (w.cycles c m)).all ∧
      TxBuffers.transfers wrf (w.cycles c m) =
        (TxBuffers.bursts wrf (w.cycles c m)).all.flatten ∧
      ((w.after c m).buffers.empty = true ↔ rest = []) := by
  obtain ⟨sent, hserving⟩ := (fed_supplies h).serving wrf m
  refine ⟨sent, (w.reader c m).pending, ?_, ?_, ?_, ?_⟩
  · rw [← committed_supplies]
    exact hserving.packets_eq
  · rw [bursts_cycles h]
    exact hserving.framesOf
  · rw [bursts_cycles h, transfers_cycles h]
    exact hserving.transfers_eq
  · rw [← (following_after h m).empty]
    exact hserving.sound.laid.empty

/-- **What is committed goes**, when the MAC is free again and again. -/
theorem exists_sent (wrf : WrFabric) (hfree : FreeMac fun m => (c m).stall) (m : ℕ) : ∃ k, m ≤ k ∧
    (TxBuffers.packets (w.cycles c m)).flatMap (TxPacket.frame wrf) <+:
      TxBuffers.transfers wrf (w.cycles c k) := by
  obtain ⟨k, hk, hall⟩ := (fed_supplies h).sends_all wrf hfree m
  refine ⟨k, hk, ?_⟩
  rw [← committed_supplies, transfers_cycles h]
  exact hall

/-- **What is committed is sent**, under any registers and every pattern of
stalls. At any time the cycles of `cyc` are the frames of the first packets
that were committed, one each, and at most a beginning of the next; every
word the MAC takes is in one of them, and `Empty` is up when no packet is
left. If the MAC is free again and again, every packet that is committed is
sent. -/
theorem transmit (wrf : WrFabric) :
    (∀ m, ∃ sent rest, TxBuffers.packets (w.cycles c m) = sent ++ rest ∧
      FramesOf wrf sent rest (TxBuffers.bursts wrf (w.cycles c m)).all ∧
      TxBuffers.transfers wrf (w.cycles c m) =
        (TxBuffers.bursts wrf (w.cycles c m)).all.flatten ∧
      ((w.after c m).buffers.empty = true ↔ rest = [])) ∧
    ((FreeMac fun m => (c m).stall) → ∀ m, ∃ k, m ≤ k ∧
      (TxBuffers.packets (w.cycles c m)).flatMap (TxPacket.frame wrf) <+:
        TxBuffers.transfers wrf (w.cycles c k)) :=
  ⟨framesOf_cycles h wrf, exists_sent h wrf⟩

end StreamsOnly

/-! The packet of two words, and a MAC that is free then. -/

/-- The cycles of the packet, and idle ones behind them. -/
def sampleForever (m : ℕ) : TxBuffersInput where
  tx := (sampleCycles.getD m (sampleStall false false false)).tx
  stall := decide (m < 25)

theorem streamsOnly_sample (m : ℕ) :
    StreamsOnly (sampleWatched.after sampleForever m, sampleForever m) := by
  rcases Nat.lt_or_ge m 25 with hm | hm
  · have hall : ∀ m < 25, StreamsOnly (sampleWatched.after sampleForever m, sampleForever m) := by
      decide +kernel
    exact hall m hm
  · have hidle : (sampleForever m).tx = (sampleStall false false false).tx := by
      rw [sampleForever, List.getD_eq_default]
      exact hm
    refine ⟨?_, fun htakes => ?_⟩
    · rw [hidle]
      rfl
    · rw [TxBuffers.takes, TxWriteSide.takes, TxBuffers.txInput, hidle] at htakes
      simp [sampleStall] at htakes

theorem transmit_sample : ∃ k, 24 ≤ (TxBuffers.transfers ⟨0, 1, 2, by decide, by decide⟩
    (sampleWatched.cycles sampleForever k)).length := by
  obtain ⟨-, hlive⟩ := transmit streamsOnly_sample ⟨0, 1, 2, by decide, by decide⟩
  have hstall : ∀ m, 25 ≤ m → (sampleForever m).stall = false := fun m hm =>
    decide_eq_false (by omega)
  have hfree : FreeMac fun m => (sampleForever m).stall := fun m =>
    ⟨m + 25, by omega, hstall _ (by omega), hstall _ (by omega)⟩
  obtain ⟨k, -, hall⟩ := hlive hfree 25
  refine ⟨k, le_trans ?_ hall.length_le⟩
  decide +kernel

end Watched

end Ipmux

end WrCalibration
