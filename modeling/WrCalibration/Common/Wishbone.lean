import WrCalibration.Common.Clocked

/-!
# Classic bus cycles

A master on the bus asks for an access and holds what it asks until the
slave acknowledges it. A slave that registers the acknowledge, and takes it
back after one cycle, answers every access in its second cycle
(`Transfer.Classic.access_eq`), so that a run of the bus is a list of gaps
and of accesses of two cycles.
-/

namespace WrCalibration

namespace Wishbone

open Clocked

/-- What a slave sees of the bus (`t_wishbone_slave_in`). -/
structure SlaveIn where
  cyc : Bool := false
  stb : Bool := false
  we : Bool := false
  adr : BitVec 32 := 0
  dat : BitVec 32 := 0

namespace SlaveIn

variable (i j : SlaveIn)

/-- An access is asked for. -/
def strobe : Bool := i.cyc && i.stb

/-- A write access is asked for. -/
def write : Bool := i.cyc && i.stb && i.we

/-- A read access is asked for. -/
def read : Bool := i.cyc && i.stb && !i.we

/-- The acknowledge register after a clock edge. -/
def ackNext (ack : Bool) : Bool := i.cyc && i.stb && !ack

/-- The access that is asked for is held. -/
structure HeldBy : Prop where
  strobe : j.strobe = true
  we : j.we = i.we
  adr : j.adr = i.adr
  dat : i.we = true → j.dat = i.dat

variable {i j}

theorem HeldBy.write (h : i.HeldBy j) (hi : i.write = true) : j.write = true := by
  have hj := h.strobe
  rw [SlaveIn.write, Bool.and_eq_true] at hi ⊢
  rw [h.we]
  exact ⟨hj, hi.2⟩

theorem ackNext_false (i : SlaveIn) : i.ackNext false = i.strobe := Bool.and_true _

theorem write_of_strobe (h : i.strobe = false) : i.write = false := by
  rw [write, show (i.cyc && i.stb) = false from h, Bool.false_and]

theorem read_of_strobe (h : i.strobe = false) : i.read = false := by
  rw [read, show (i.cyc && i.stb) = false from h, Bool.false_and]

theorem HeldBy.read_eq (h : i.HeldBy j) (hi : i.strobe = true) : j.read = i.read := by
  rw [read, read, show (j.cyc && j.stb) = true from h.strobe,
    show (i.cyc && i.stb) = true from hi, h.we]

end SlaveIn

/-! ## Transfers -/

variable {σ ι : Type}

/-- **What a master does**: it leaves the bus alone for a cycle, or asks for
an access in a first cycle and holds it in some more. -/
inductive Transfer (ι : Type) where
  | gap (c : ι)
  | access (c : ι) (held : List ι)

namespace Transfer

/-- The cycles of a transfer. -/
def cycles : Transfer ι → List ι
  | gap c => [c]
  | access c held => c :: held

/-- The first cycle of an access. -/
def first? : Transfer ι → Option ι
  | gap _ => none
  | access c _ => some c

/-- **A classic cycle**: the access is held until it is acknowledged. -/
def Classic (step : σ → ι → σ) (ackOf : σ → Bool) (wb : ι → SlaveIn) (s : σ) :
    Transfer ι → Prop
  | gap c => (wb c).strobe = false
  | access c held =>
    (wb c).strobe = true ∧ (∀ c' ∈ held, (wb c).HeldBy (wb c')) ∧
      (trace step s (c :: held)).map (fun x => ackOf x.1) =
        List.replicate held.length false ++ [true]

variable {step : σ → ι → σ} {ackOf : σ → Bool} {wb : ι → SlaveIn} {s : σ} {c : ι}
  {held : List ι} {t : Transfer ι}

/-- **An access takes two cycles.** -/
theorem Classic.access_eq (hack : ∀ s c, ackOf (step s c) = (wb c).ackNext (ackOf s))
    (hs : ackOf s = false) (h : (access c held).Classic step ackOf wb s) :
    (wb c).strobe = true ∧ ∃ c', held = [c'] ∧ (wb c).HeldBy (wb c') := by
  obtain ⟨hstrobe, hheld, hacks⟩ := h
  refine ⟨hstrobe, ?_⟩
  match held with
  | [] =>
    -- in the first cycle the acknowledge is still down
    simp [trace, hs] at hacks
  | [c'] => exact ⟨c', rfl, hheld c' (by simp)⟩
  | c' :: c'' :: rest =>
    -- in the second one it is up
    have hup : ackOf (step s c) = true := by
      rw [hack, hs, SlaveIn.ackNext_false, hstrobe]
    simp [trace, hs, hup, List.replicate_succ] at hacks

/-- Two cycles with one access are a transfer. -/
theorem classic_access (hack : ∀ s c, ackOf (step s c) = (wb c).ackNext (ackOf s))
    (hs : ackOf s = false) {c' : ι} (hstrobe : (wb c).strobe = true)
    (hheld : (wb c).HeldBy (wb c')) : (access c [c']).Classic step ackOf wb s := by
  have hup : ackOf (step s c) = true := by
    rw [hack, hs, SlaveIn.ackNext_false, hstrobe]
  refine ⟨hstrobe, fun d hd => ?_, ?_⟩
  · rwa [List.mem_singleton.1 hd]
  · simp [trace, hs, hup]

/-- After a transfer the acknowledge is down again. -/
theorem Classic.ack_run (hack : ∀ s c, ackOf (step s c) = (wb c).ackNext (ackOf s))
    (hs : ackOf s = false) (h : t.Classic step ackOf wb s) :
    ackOf (run step s t.cycles) = false := by
  cases t with
  | gap c =>
    have hgap : ((wb c).cyc && (wb c).stb) = false := h
    rw [cycles, run_cons, run_nil, hack, SlaveIn.ackNext, hgap, Bool.false_and]
  | access c held =>
    obtain ⟨hstrobe, c', rfl, -⟩ := h.access_eq hack hs
    have hup : ackOf (step s c) = true := by
      rw [hack, hs, SlaveIn.ackNext_false, hstrobe]
    rw [cycles, run_cons, run_cons, run_nil, hack, hup, SlaveIn.ackNext, Bool.not_true,
      Bool.and_false]

/-- The state after a transfer. -/
def after (t : Transfer ι) (step : σ → ι → σ) (s : σ) : σ := run step s t.cycles

end Transfer

/-- **A run of the bus**: one classic cycle after the other. -/
inductive Transfers (step : σ → ι → σ) (ackOf : σ → Bool) (wb : ι → SlaveIn) :
    σ → List (Transfer ι) → Prop
  | nil {s : σ} : Transfers step ackOf wb s []
  | cons {s : σ} {t : Transfer ι} {ts : List (Transfer ι)} :
    t.Classic step ackOf wb s → Transfers step ackOf wb (t.after step s) ts →
    Transfers step ackOf wb s (t :: ts)

end Wishbone

end WrCalibration
