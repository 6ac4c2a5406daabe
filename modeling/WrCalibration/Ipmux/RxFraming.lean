import WrCalibration.Common.Clocked
import WrCalibration.Ipmux.RxMac2Buf

/-!
# The frames in the receive buffer

Which words leave the pipeline of `rx_mac2buf`, and with which mark, is a
matter of the fabric alone (`pass`), and of a frame it is the data words
with the last one marked (`pass_frame`). What `Full` does is drop some of
them, and the rest go to consecutive addresses (`run_frame`).
-/

namespace WrCalibration

namespace Ipmux

open Clocked GenericDpram RxMac2Buf

variable (wrf : WrFabric)

/-! ## The pipeline -/

/-- The data word of a cycle. -/
def dataWord (i : SnkInput) : Option Word :=
  if snkValid i = true ∧ i.adr = wrf.wrfData then some i.dat else none

/-- A cycle that shows the word before it to be the last one. -/
def ends (i : SnkInput) : Bool := !i.cyc || decide (i.adr ≠ wrf.wrfData)

/-- The word that waits after a cycle, from the one that waited before. -/
def hold (p : Option Word) (i : SnkInput) : Option Word :=
  if dataWord wrf i ≠ none then dataWord wrf i else if ends wrf i then none else p

/-- The word that leaves in a cycle, and whether it meets `Full`. -/
def leave (p : Option Word) (i : SnkInput) : Option (BitVec 17 × Bool) :=
  if dataWord wrf i ≠ none ∨ ends wrf i = true then
    p.map fun w => (packetWord (ends wrf i) w, i.full)
  else none

/-- The words that leave in some cycles, and the one that waits then. -/
def pass : Option Word → List SnkInput → List (BitVec 17 × Bool)
  | _, [] => []
  | p, i :: ins => (leave wrf p i).toList ++ pass (hold wrf p i) ins

@[inherit_doc pass] def pend (p : Option Word) (ins : List SnkInput) : Option Word :=
  ins.foldl (hold wrf) p

/-- The words that do not meet `Full`. -/
def kept (out : List (BitVec 17 × Bool)) : List (BitVec 17) :=
  (out.filter fun x => !x.2).map Prod.fst

/-- Words at consecutive addresses. -/
def placed (base : BitVec rxPktBufAdrsize) :
    ℕ → List (BitVec 17) → List (BitVec rxPktBufAdrsize × BitVec 17)
  | _, [] => []
  | k, w :: ws => (base + BitVec.ofNat rxPktBufAdrsize k, w) :: placed base (k + 1) ws

variable {wrf} {p : Option Word} {i : SnkInput} {ins ins' : List SnkInput}
  {out out' : List (BitVec 17 × Bool)} {base : BitVec rxPktBufAdrsize}

theorem pass_append : pass wrf p (ins ++ ins') =
    pass wrf p ins ++ pass wrf (pend wrf p ins) ins' := by
  induction ins generalizing p with
  | nil => rfl
  | cons i ins ih =>
    rw [List.cons_append, pass, ih, pass, List.append_assoc]
    rfl

theorem leave_none : leave wrf none i = none := by
  rw [leave, Option.map_none, ite_self]

theorem kept_append : kept (out ++ out') = kept out ++ kept out' := by
  rw [kept, List.filter_append, List.map_append, kept, kept]

theorem length_kept_le : (kept out).length ≤ out.length := by
  rw [kept, List.length_map]
  exact List.length_filter_le _ _

theorem placed_append (k : ℕ) (ws ws' : List (BitVec 17)) : placed base k (ws ++ ws') =
    placed base k ws ++ placed base (k + ws.length) ws' := by
  induction ws generalizing k with
  | nil => rfl
  | cons w ws ih =>
    rw [List.cons_append, placed, ih, placed, List.length_cons, Nat.add_right_comm, Nat.add_assoc,
      List.cons_append]

/-- **The pipeline** of the machine holds a word, or nothing. -/
structure Pipe (wrf : WrFabric) (p : Option Word) (s : RxMac2Buf) : Prop where
  valid : s.qValidP1 = p.isSome
  data : ∀ w, p = some w → s.qDataP1 = w ∧ s.qAdrP1 = wrf.wrfData ∧ s.snkCycD0 = true

/-- The word that leaves the pipeline of the machine. -/
def leaves (wrf : WrFabric) (s : RxMac2Buf) (i : SnkInput) : Option (BitVec 17 × Bool) :=
  if s.qValidP1 && s.shiftPipeline wrf i then some (packetWord (s.eof wrf i) s.qDataP1, i.full)
  else none

theorem eq_of_leaves {s : RxMac2Buf} {x : BitVec 17 × Bool} (h : leaves wrf s i = some x) :
    x = (packetWord (s.eof wrf i) s.qDataP1, i.full) := by
  rw [leaves, Option.ite_none_right_eq_some] at h
  exact (Option.some.inj h.2).symm

theorem weInt_eq (s : RxMac2Buf) : s.weInt wrf i = (leaves wrf s i).any fun x => !x.2 := by
  rw [weInt, leaves]
  cases s.qValidP1 <;> cases s.shiftPipeline wrf i <;> cases i.full <;> rfl

theorem overflow_eq (s : RxMac2Buf) : s.overflow wrf i = (leaves wrf s i).any fun x => x.2 := by
  rw [overflow, leaves]
  cases s.qValidP1 <;> cases s.shiftPipeline wrf i <;> cases i.full <;> rfl

variable {s : RxMac2Buf}

/-- A word that waits is moved by the next data word and by its end. -/
theorem Pipe.shift {w : Word} (h : Pipe wrf (some w) s) :
    s.shiftPipeline wrf i = decide (dataWord wrf i ≠ none ∨ ends wrf i = true) ∧
      s.eof wrf i = ends wrf i := by
  obtain ⟨-, hadr, hcyc⟩ := h.data w rfl
  by_cases hdata : i.adr = wrf.wrfData
  · by_cases hv : snkValid i = true
    · simp [shiftPipeline, eof, eocycle, adrChange, ends, dataWord, hcyc, hdata, hv]
    · simp [shiftPipeline, eof, eocycle, adrChange, ends, dataWord, hcyc, hdata, hv]
  · simp [shiftPipeline, eof, eocycle, adrChange, ends, dataWord, hadr, hcyc, hdata]

theorem Pipe.leaves_eq (h : Pipe wrf p s) : leaves wrf s i = leave wrf p i := by
  cases p with
  | none => simp [leaves, h.valid, leave]
  | some w =>
    obtain ⟨hshift, heof⟩ := h.shift (i := i)
    obtain ⟨hdata, -, -⟩ := h.data w rfl
    rw [leaves, h.valid, hshift, heof, hdata, leave]
    by_cases hmove : dataWord wrf i ≠ none ∨ ends wrf i = true
    · rw [if_pos hmove]
      simp [hmove]
    · rw [if_neg hmove]
      simp [hmove]

/-- **One cycle of the pipeline.** -/
theorem Pipe.step (h : Pipe wrf p s) : Pipe wrf (hold wrf p i) (s.step wrf i) := by
  have hsm : (s.step wrf i).qValidP1 = (s.pipeline wrf i).qValidP1 ∧
      (s.step wrf i).qDataP1 = (s.pipeline wrf i).qDataP1 ∧
      (s.step wrf i).qAdrP1 = (s.pipeline wrf i).qAdrP1 ∧
      (s.step wrf i).snkCycD0 = i.cyc := ⟨rfl, rfl, rfl, rfl⟩
  obtain ⟨hvalid, hqdata, hadr, hcyc⟩ := hsm
  by_cases hword : snkValid i = true ∧ i.adr = wrf.wrfData
  · -- a data word is taken
    have hhold : hold wrf p i = some i.dat := by simp [hold, dataWord, hword]
    have hshift : s.shiftPipeline wrf i = true := by simp [shiftPipeline, hword.1]
    have hicyc : i.cyc = true := by
      have hv := hword.1
      simp only [snkValid, Bool.and_eq_true] at hv
      exact hv.1.1.1
    rw [hhold]
    constructor
    · rw [hvalid, RxMac2Buf.pipeline, if_pos hshift]
      simp [hword.1, hword.2]
    · intro w hw
      rw [Option.some.injEq] at hw
      rw [hqdata, hadr, hcyc, RxMac2Buf.pipeline, if_pos hshift]
      exact ⟨hw, hword.2, hicyc⟩
  · have hnone : dataWord wrf i = none := by rw [dataWord, if_neg hword]
    by_cases hshift : s.shiftPipeline wrf i = true
    · -- the pipeline is emptied
      have hhold : hold wrf p i = none := by
        cases p with
        | none => simp [hold, hnone]
        | some w =>
          have hends := (h.shift (i := i)).1
          rw [hshift, hnone] at hends
          have hends' : ends wrf i = true := by simpa using hends.symm
          simp [hold, hnone, hends']
      rw [hhold]
      refine ⟨?_, by simp⟩
      rw [hvalid, RxMac2Buf.pipeline, if_pos hshift]
      by_cases hdata : i.adr = wrf.wrfData
      · simpa [hdata] using fun hv => hword ⟨hv, hdata⟩
      · simp [hdata]
    · -- nothing moves
      have hhold : hold wrf p i = p := by
        cases p with
        | none => simp [hold, hnone]
        | some w =>
          have hends := (h.shift (i := i)).1
          rw [Bool.eq_false_iff.2 hshift, hnone] at hends
          have hends' : ends wrf i = false := by simpa using hends.symm
          simp [hold, hnone, hends']
      rw [hhold]
      constructor
      · rw [hvalid, RxMac2Buf.pipeline, if_neg hshift, h.valid]
      · intro w hw
        obtain ⟨hqd, hqa, _⟩ := h.data w hw
        subst hw
        have hends := (h.shift (i := i)).1
        rw [Bool.eq_false_iff.2 hshift, hnone] at hends
        have hicyc : i.cyc = true ∧ i.adr = wrf.wrfData := by simpa [ends] using hends.symm
        rw [hqdata, hadr, hcyc, RxMac2Buf.pipeline, if_neg hshift]
        exact ⟨hqd, hqa, hicyc.1⟩

/-! ## The machine -/

section Machine

variable {ram : GenericDpram rxPktBufAdrsize 17} {s : RxWriteSide ram} {done : List (BitVec 17)}

/-- **Between two frames**: nothing waits, and the next frame is to begin
at `base`, where the packet pointer is or will be after one cycle. -/
structure Between (wrf : WrFabric) (base : BitVec rxPktBufAdrsize) (s : RxWriteSide ram) :
    Prop where
  cyc : s.sm.snkCycD0 = false
  pipe : Pipe wrf none s.sm
  badFrame : s.sm.badFrame = false
  pktPtr : (if s.sm.goodFrame then s.sm.pktPtr + BitVec.ofNat rxPktBufAdrsize s.sm.offset
    else s.sm.pktPtr) = base
  offset : s.sm.goodFrame = false → s.sm.offset = 0

/-- **In a frame**: what of it is written, and what waits. -/
structure Receiving (wrf : WrFabric) (base : BitVec rxPktBufAdrsize) (done : List (BitVec 17))
    (p : Option Word) (s : RxWriteSide ram) : Prop where
  cyc : s.sm.snkCycD0 = true
  pipe : Pipe wrf p s.sm
  goodFrame : s.sm.goodFrame = false
  badFrame : s.sm.badFrame = false
  pktPtr : s.sm.pktPtr = base
  offset : s.sm.offset = done.length
  held : ram.Holds s.buffer base 0 done

theorem between_reset : Between wrf 0 s.reset :=
  ⟨rfl, ⟨rfl, nofun⟩, rfl, rfl, fun _ => rfl⟩

/-- With nothing in the pipeline nothing is written. -/
theorem weInt_of_pipe_none {s : RxMac2Buf} (h : Pipe wrf none s) : s.weInt wrf i = false := by
  rw [weInt, h.valid]
  rfl

/-- After one cycle the packet pointer is where the next frame begins. -/
theorem Between.settle (h : Between wrf base s) :
    (s.step wrf i).sm.pktPtr = base ∧ (s.step wrf i).sm.offset = 0 := by
  have hwe : s.sm.weInt wrf i = false := weInt_of_pipe_none h.pipe
  have hptr := h.pktPtr
  change (s.sm.pointers wrf i).2 = base ∧ (s.sm.pointers wrf i).1 = 0
  cases hgood : s.sm.goodFrame with
  | true => simpa [pointers, hwe, hgood] using hptr
  | false => simpa [pointers, hwe, hgood, h.badFrame, h.offset hgood] using hptr

/-- The buffer is not touched between frames. -/
theorem Between.held_step {ws : List (BitVec 17)} {base' : BitVec rxPktBufAdrsize}
    (h : Between wrf base s) (hheld : ram.Holds s.buffer base' 0 ws) :
    ram.Holds (s.step wrf i).buffer base' 0 ws :=
  hheld.step fun hwe => by
    rw [weInt_of_pipe_none h.pipe] at hwe
    cases hwe

/-- A cycle of the gap. -/
theorem Between.step_gap (h : Between wrf base s) (hi : i.cyc = false) :
    Between wrf base (s.step wrf i) := by
  have hsettle := h.settle (i := i)
  have hnone : hold wrf none i = none := by simp [hold, dataWord, snkValid, hi]
  have hgood : (s.step wrf i).sm.goodFrame = false := by
    change s.sm.eocycle i = false
    rw [eocycle, h.cyc, Bool.false_and]
  refine ⟨hi, ?_, rfl, ?_, fun _ => hsettle.2⟩
  · have hpipe := h.pipe.step (i := i)
    rwa [hnone] at hpipe
  · rw [hgood]
    exact hsettle.1

/-- The first cycle of a frame. -/
theorem Between.step_first (h : Between wrf base s) (hi : i.cyc = true) :
    Receiving wrf base [] (hold wrf none i) (s.step wrf i) := by
  have hsettle := h.settle (i := i)
  refine ⟨hi, h.pipe.step, ?_, rfl, hsettle.1, hsettle.2, ?_⟩
  · change s.sm.eocycle i = false
    rw [eocycle, h.cyc, Bool.false_and]
  · intro k hk
    simp at hk

/-- What is written is what is kept of the words that leave. -/
theorem written_toList (h : Receiving wrf base done p s) :
    (RxWriteSide.written wrf (s, i)).toList =
      placed base done.length (kept (leave wrf p i).toList) := by
  have hleaves := h.pipe.leaves_eq (i := i)
  rw [RxWriteSide.written, weInt_eq, hleaves]
  cases hl : leave wrf p i with
  | none => rfl
  | some x =>
    have hword := eq_of_leaves (hleaves.trans hl)
    subst hword
    cases hfull : i.full with
    | true => simp [kept, placed]
    | false => simp [kept, placed, wrAddr, h.pktPtr, h.offset]

/-- **One cycle of a frame, or the one after it.** -/
theorem Receiving.cycle (h : Receiving wrf base done p s)
    (hlen : done.length < 2 ^ rxPktBufAdrsize) :
    (s.step wrf i).sm.pktPtr = base ∧
    (s.step wrf i).sm.offset = (done ++ kept (leave wrf p i).toList).length ∧
    ram.Holds (s.step wrf i).buffer base 0 (done ++ kept (leave wrf p i).toList) := by
  have hleaves := h.pipe.leaves_eq (i := i)
  have hwe : s.sm.weInt wrf i = _ := weInt_eq s.sm
  rw [hleaves] at hwe
  change (s.sm.pointers wrf i).2 = base ∧ (s.sm.pointers wrf i).1 = _ ∧
    ram.Holds (ram.step s.buffer (s.sm.weInt wrf i) s.sm.wrAddr
      (packetWord (s.sm.eof wrf i) s.sm.qDataP1) i.rdAddr) base 0 _
  cases hwrite : s.sm.weInt wrf i with
  | false =>
    -- nothing leaves the pipeline, or what leaves meets a full buffer
    have hkept : kept (leave wrf p i).toList = [] := by
      cases hl : leave wrf p i with
      | none => rfl
      | some x =>
        have hx : x.2 = true := by simpa [hl, hwrite] using hwe
        simp [kept, hx]
    rw [hkept, List.append_nil]
    exact ⟨by simp [pointers, hwrite, h.goodFrame, h.badFrame, h.pktPtr],
      by simp [pointers, hwrite, h.goodFrame, h.badFrame, h.offset],
      h.held.step fun hfalse => by cases hfalse⟩
  | true =>
    have hkept : kept (leave wrf p i).toList = [packetWord (s.sm.eof wrf i) s.sm.qDataP1] := by
      cases hl : leave wrf p i with
      | none => simp [hl, hwrite] at hwe
      | some x =>
        have hx : x.2 = false := by simpa [hl, hwrite] using hwe
        have hword := eq_of_leaves (hleaves.trans hl)
        subst hword
        change i.full = false at hx
        simp [kept, hx]
    rw [hkept]
    refine ⟨by simp [pointers, hwrite, h.pktPtr], by simp [pointers, hwrite, h.offset], ?_⟩
    have haddr : s.sm.wrAddr = base + BitVec.ofNat rxPktBufAdrsize (0 + done.length) := by
      rw [wrAddr, h.pktPtr, h.offset, Nat.zero_add]
    rw [haddr]
    exact h.held.step_append (by rwa [Nat.zero_add])

/-- The cycles of a burst: what leaves the pipeline is kept or lost, and what
is kept is written behind what is there. -/
theorem Receiving.run (h : Receiving wrf base done p s) (hcyc : ∀ i ∈ ins, i.cyc = true)
    (hlen : done.length + (pass wrf p ins).length < 2 ^ rxPktBufAdrsize) :
    Receiving wrf base (done ++ kept (pass wrf p ins)) (pend wrf p ins)
        (run (RxWriteSide.step wrf) s ins) ∧
      (trace (RxWriteSide.step wrf) s ins).filterMap (RxWriteSide.written wrf) =
        placed base done.length (kept (pass wrf p ins)) ∧
      (trace (RxWriteSide.step wrf) s ins).filterMap (fun c => leaves wrf c.1.sm c.2) =
        pass wrf p ins := by
  -- the words kept so far grow with the run: they are generalised, the base is not
  induction ins generalizing s done p with
  | nil =>
    refine ⟨?_, rfl, rfl⟩
    rw [pass, kept, List.filter_nil, List.map_nil, List.append_nil]
    exact h
  | cons i ins ih =>
    obtain ⟨hi, hins⟩ := List.forall_mem_cons.1 hcyc
    have hkept : (kept (leave wrf p i).toList).length ≤ _ := length_kept_le
    rw [pass, List.length_append] at hlen
    have hnow := h.cycle (i := i) (by omega)
    have hthen : Receiving wrf base (done ++ kept (leave wrf p i).toList) (hold wrf p i)
        (s.step wrf i) := by
      refine ⟨hi, h.pipe.step, ?_, rfl, hnow.1, hnow.2.1, hnow.2.2⟩
      change s.sm.eocycle i = false
      rw [eocycle, hi, Bool.not_true, Bool.and_false]
    obtain ⟨hrec, hwritten, hleaves⟩ := ih hthen hins (by rw [List.length_append]; omega)
    refine ⟨?_, ?_, ?_⟩
    · rw [pass, kept_append, ← List.append_assoc]
      exact hrec
    · rw [filterMap_trace_cons, hwritten, written_toList h, pass, kept_append, placed_append,
        List.length_append]
    · rw [filterMap_trace_cons, hleaves, h.pipe.leaves_eq, pass]

/-- The cycle after a burst. -/
theorem Receiving.step_last (h : Receiving wrf base done p s) (hi : i.cyc = false)
    (hlen : done.length < 2 ^ rxPktBufAdrsize) :
    Between wrf (base + BitVec.ofNat _ (done ++ kept (leave wrf p i).toList).length)
        (s.step wrf i) ∧
      ram.Holds (s.step wrf i).buffer base 0 (done ++ kept (leave wrf p i).toList) := by
  obtain ⟨hptr, hoffset, hheld⟩ := h.cycle (i := i) hlen
  have hgood : (s.step wrf i).sm.goodFrame = true := by
    change s.sm.eocycle i = true
    rw [eocycle, h.cyc, hi]
    rfl
  have hnone : hold wrf p i = none := by simp [hold, dataWord, snkValid, ends, hi]
  have hpipe := h.pipe.step (i := i)
  rw [hnone] at hpipe
  refine ⟨⟨hi, hpipe, rfl, ?_, ?_⟩, hheld⟩
  · rw [hgood, if_pos rfl, hptr, hoffset]
  · rw [hgood]
    simp

/-- The cycles between two bursts: nothing is written, and the buffer keeps
what is held. -/
theorem Between.run_gap {ws : List (BitVec 17)} {base' : BitVec rxPktBufAdrsize}
    (h : Between wrf base s) (hheld : ram.Holds s.buffer base' 0 ws)
    (hcyc : ∀ i ∈ ins, i.cyc = false) :
    Between wrf base (run (RxWriteSide.step wrf) s ins) ∧
      ram.Holds (run (RxWriteSide.step wrf) s ins).buffer base' 0 ws ∧
      (trace (RxWriteSide.step wrf) s ins).filterMap (RxWriteSide.written wrf) = [] ∧
      (trace (RxWriteSide.step wrf) s ins).filterMap (fun c => leaves wrf c.1.sm c.2) = [] := by
  induction ins generalizing s with
  | nil => exact ⟨h, hheld, rfl, rfl⟩
  | cons i ins ih =>
    obtain ⟨hi, hins⟩ := List.forall_mem_cons.1 hcyc
    obtain ⟨hbetween, hholds, hwritten, hleaves⟩ := ih (h.step_gap hi) (h.held_step hheld) hins
    refine ⟨hbetween, hholds, ?_, ?_⟩
    · rw [filterMap_trace_cons, hwritten, RxWriteSide.written, weInt_of_pipe_none h.pipe]
      rfl
    · rw [filterMap_trace_cons, hleaves, h.pipe.leaves_eq, leave_none]
      rfl

end Machine

/-! ## Frames on the fabric -/

/-- **A frame on the fabric**: a burst of status words, data words and
out-of-band words, each part with gaps, and the cycles until the next
burst. -/
structure FabricFrame (wrf : WrFabric) where
  status : List SnkInput
  data : List SnkInput
  oob : List SnkInput
  gap : List SnkInput
  cyc_burst : ∀ i ∈ status ++ data ++ oob, i.cyc = true
  status_adr : ∀ i ∈ status, snkValid i = true → i.adr = wrf.wrfStatus
  data_adr : ∀ i ∈ data, i.adr = wrf.wrfData
  oob_adr : ∀ i ∈ oob, snkValid i = true → i.adr = wrf.wrfOob
  cyc_gap : ∀ i ∈ gap, i.cyc = false
  gap_ne : gap ≠ []
  short : (data.filterMap (dataWord wrf)).length ≤ maxReservPktBuf

namespace FabricFrame

variable (f : FabricFrame wrf)

/-- The cycles of the burst, and all cycles of a frame. -/
def burst : List SnkInput := f.status ++ f.data ++ f.oob

@[inherit_doc burst] def cycles : List SnkInput := f.burst ++ f.gap

/-- The data words. -/
def words : List Word := f.data.filterMap (dataWord wrf)

end FabricFrame

/-- A word with another address is no data word. -/
theorem dataWord_eq_none {a : BitVec 2} (h : snkValid i = true → i.adr = a)
    (ha : a ≠ wrf.wrfData) : dataWord wrf i = none := by
  rw [dataWord, if_neg]
  rintro ⟨hvalid, hdata⟩
  exact ha ((h hvalid).symm.trans hdata)

/-- Where no data word comes, the word that waits stays or leaves with the
mark. -/
theorem pass_of_quiet (h : ∀ i ∈ ins, dataWord wrf i = none) :
    (pass wrf p ins).map Prod.fst ++ (pend wrf p ins).toList.map (packetWord true) =
      p.toList.map (packetWord true) := by
  induction ins generalizing p with
  | nil => rfl
  | cons i ins ih =>
    obtain ⟨hi, hins⟩ := List.forall_mem_cons.1 h
    have hrest := ih (p := hold wrf p i) hins
    rw [pass, List.map_append, List.append_assoc]
    change _ ++ (_ ++ (pend wrf (hold wrf p i) ins).toList.map _) = _
    rw [hrest]
    cases hends : ends wrf i with
    | false => simp [leave, hold, hi, hends]
    | true => cases p <;> simp [leave, hold, hi, hends]

/-- It does not wait longer than to the end of the burst. -/
theorem pend_of_quiet (h : ∀ i ∈ ins, dataWord wrf i = none)
    (hends : p = none ∨ ∃ i ∈ ins, ends wrf i = true) : pend wrf p ins = none := by
  induction ins generalizing p with
  | nil => simpa [pend] using hends
  | cons i ins ih =>
    obtain ⟨hi, hins⟩ := List.forall_mem_cons.1 h
    refine ih hins ?_
    rcases hends with rfl | ⟨j, hj, hjends⟩
    · left
      simp [hold, hi]
    · rcases List.mem_cons.1 hj with rfl | hj
      · left
        simp [hold, hi, hjends]
      · exact .inr ⟨j, hj, hjends⟩

/-- Among data words each leaves with the next one, without the mark. -/
theorem pass_of_data (h : ∀ i ∈ ins, ends wrf i = false) :
    (pass wrf p ins).map Prod.fst ++ (pend wrf p ins).toList.map (packetWord true) =
      endMarked (p.toList ++ ins.filterMap (dataWord wrf)) := by
  induction ins generalizing p with
  | nil => cases p <;> rfl
  | cons i ins ih =>
    obtain ⟨hi, hins⟩ := List.forall_mem_cons.1 h
    have hrest := ih (p := hold wrf p i) hins
    rw [pass, List.map_append, List.append_assoc]
    change _ ++ (_ ++ (pend wrf (hold wrf p i) ins).toList.map _) = _
    rw [hrest]
    cases hword : dataWord wrf i with
    | none => simp [leave, hold, hword, hi]
    | some w => cases p <;> simp [leave, hold, hword, hi, endMarked]

/-- **What leaves the pipeline** in a frame: its data words, with the mark on
the last one. -/
theorem FabricFrame.pass_cycles (f : FabricFrame wrf) :
    (pass wrf none f.cycles).map Prod.fst = endMarked f.words ∧
      pend wrf none f.cycles = none := by
  have hstatus : ∀ i ∈ f.status, dataWord wrf i = none := fun i hi =>
    dataWord_eq_none (f.status_adr i hi) wrf.status_ne
  have hdata : ∀ i ∈ f.data, ends wrf i = false := fun i hi => by
    have hcyc := f.cyc_burst i (by simp [hi])
    simp [ends, hcyc, f.data_adr i hi]
  have hclose : ∀ i ∈ f.oob ++ f.gap, dataWord wrf i = none := fun i hi => by
    rcases List.mem_append.1 hi with hi | hi
    · exact dataWord_eq_none (f.oob_adr i hi) wrf.oob_ne
    · simp [dataWord, snkValid, f.cyc_gap i hi]
  -- the gap is not empty, so the word that is held back leaves in it
  have hend : ∃ i ∈ f.oob ++ f.gap, ends wrf i = true := by
    obtain ⟨i, rest, hgap⟩ := List.exists_cons_of_ne_nil f.gap_ne
    have hi : i ∈ f.gap := by simp [hgap]
    exact ⟨i, by simp [hi], by simp [ends, f.cyc_gap i hi]⟩
  have hcycles : f.cycles = f.status ++ (f.data ++ (f.oob ++ f.gap)) := by
    simp only [cycles, burst, List.append_assoc]
  have hpend : pend wrf none f.status = none := pend_of_quiet hstatus (.inl rfl)
  -- the burst is cut where its address changes
  have hhead := pass_of_quiet (p := none) hstatus
  have hbody := pass_of_data (p := none) hdata
  have hlast := pass_of_quiet (p := pend wrf none f.data) hclose
  have hnone := pend_of_quiet (p := pend wrf none f.data) hclose (.inr hend)
  rw [hpend, Option.toList_none, List.map_nil, List.append_nil] at hhead
  rw [hnone, Option.toList_none, List.map_nil, List.append_nil] at hlast
  rw [hcycles, pass_append, pass_append, hpend, List.map_append, List.map_append, hhead, hlast,
    hbody]
  refine ⟨rfl, ?_⟩
  rw [pend, List.foldl_append, List.foldl_append]
  change pend wrf (pend wrf (pend wrf none f.status) f.data) (f.oob ++ f.gap) = none
  rw [hpend, hnone]

theorem pass_none_of_quiet (h : ∀ i ∈ ins, dataWord wrf i = none) : pass wrf none ins = [] := by
  have hpass := pass_of_quiet (p := none) h
  rw [Option.toList_none, List.map_nil, List.append_eq_nil_iff, List.map_eq_nil_iff] at hpass
  exact hpass.1

namespace FabricFrame

variable {ram : GenericDpram rxPktBufAdrsize 17} {s : RxWriteSide ram} (f : FabricFrame wrf)

theorem length_pass : (pass wrf none f.cycles).length = f.words.length := by
  rw [← List.length_map (f := Prod.fst), f.pass_cycles.1, length_endMarked]

/-- **One frame**: what is kept of it stands at the packet pointer, which
moves behind it. -/
theorem run_cycles (h : Between wrf base s) :
    Between wrf (base + BitVec.ofNat _ (kept (pass wrf none f.cycles)).length)
        (run (RxWriteSide.step wrf) s f.cycles) ∧
      ram.Holds (run (RxWriteSide.step wrf) s f.cycles).buffer base 0
        (kept (pass wrf none f.cycles)) ∧
      (trace (RxWriteSide.step wrf) s f.cycles).filterMap (RxWriteSide.written wrf) =
        placed base 0 (kept (pass wrf none f.cycles)) ∧
      (trace (RxWriteSide.step wrf) s f.cycles).filterMap (fun c => leaves wrf c.1.sm c.2) =
        pass wrf none f.cycles := by
  have hgap : ∀ i ∈ f.gap, dataWord wrf i = none := fun i hi => by
    simp [dataWord, snkValid, f.cyc_gap i hi]
  have hshort := f.short
  have hlength := f.length_pass
  have hbuffer : maxReservPktBuf < 2 ^ rxPktBufAdrsize := by decide
  change f.words.length ≤ _ at hshort
  cases hburst : f.burst with
  | nil =>
    have hcycles : f.cycles = f.gap := by rw [cycles, hburst, List.nil_append]
    have hnothing : ram.Holds s.buffer base 0 [] := fun k hk => absurd hk (Nat.not_lt_zero k)
    rw [hcycles, pass_none_of_quiet hgap]
    have hrun := h.run_gap hnothing f.cyc_gap
    simpa [kept, placed] using hrun
  | cons i rest =>
    obtain ⟨g, gs, hg⟩ := List.exists_cons_of_ne_nil f.gap_ne
    have hcycles : f.cycles = i :: (rest ++ g :: gs) := by
      rw [cycles, hburst, hg, List.cons_append]
    have hcyc : ∀ j ∈ i :: rest, j.cyc = true := hburst ▸ f.cyc_burst
    obtain ⟨hi, hrest⟩ := List.forall_mem_cons.1 hcyc
    obtain ⟨hgcyc, hgscyc⟩ := List.forall_mem_cons.1 (hg ▸ f.cyc_gap)
    have hgs : ∀ j ∈ gs, dataWord wrf j = none := (List.forall_mem_cons.1 (hg ▸ hgap)).2
    have hghold : hold wrf (pend wrf (hold wrf none i) rest) g = none := by
      simp [hold, dataWord, snkValid, ends, hgcyc]
    -- what leaves comes in the burst and in the first cycle after it
    have hpass : pass wrf none f.cycles = pass wrf (hold wrf none i) rest ++
        (leave wrf (pend wrf (hold wrf none i) rest) g).toList := by
      rw [hcycles, pass, leave_none, Option.toList_none, List.nil_append, pass_append, pass,
        hghold, pass_none_of_quiet hgs, List.append_nil]
    generalize pass wrf none f.cycles = out at hpass hlength ⊢
    have hsum : (pass wrf (hold wrf none i) rest).length ≤ maxReservPktBuf := by
      rw [hpass, List.length_append] at hlength
      omega
    have hfirst := h.step_first hi
    obtain ⟨hrec, hwritten, hleaves⟩ := hfirst.run hrest (by rw [List.length_nil]; omega)
    rw [List.nil_append] at hrec
    have hkept : (kept (pass wrf (hold wrf none i) rest)).length ≤ _ := length_kept_le
    obtain ⟨hbetween, hheld⟩ := hrec.step_last hgcyc (by omega)
    obtain ⟨hbetween', hheld', hwritten', hleaves'⟩ := hbetween.run_gap hheld hgscyc
    rw [← kept_append, ← hpass] at hbetween' hheld'
    rw [hcycles, run_cons, run_append, run_cons]
    refine ⟨hbetween', hheld', ?_, ?_⟩
    · rw [filterMap_trace_cons, trace_append, List.filterMap_append, hwritten,
        filterMap_trace_cons, hwritten', written_toList hrec, List.append_nil,
        RxWriteSide.written, weInt_of_pipe_none h.pipe, hpass, kept_append, placed_append]
      simp
    · rw [filterMap_trace_cons, trace_append, List.filterMap_append, hleaves,
        filterMap_trace_cons, hleaves', h.pipe.leaves_eq, hrec.pipe.leaves_eq, leave_none, hpass,
        List.append_nil]
      rfl

/-- With the buffer never full all of it is kept. -/
theorem kept_pass (h : ∀ x ∈ pass wrf none f.cycles, x.2 = false) :
    kept (pass wrf none f.cycles) = endMarked f.words := by
  have hall : (pass wrf none f.cycles).filter (fun x => !x.2) = pass wrf none f.cycles :=
    List.filter_eq_self.2 fun x hx => by rw [h x hx, Bool.not_false]
  rw [kept, hall, f.pass_cycles.1]

end FabricFrame

/-! ## Frames in a row -/

section Frames

variable {ram : GenericDpram rxPktBufAdrsize 17} {s : RxWriteSide ram} {f : FabricFrame wrf}
  {fs : List (FabricFrame wrf)}

/-- The cycles of frames in a row. -/
def fabricCycles (fs : List (FabricFrame wrf)) : List SnkInput := fs.flatMap FabricFrame.cycles

/-- The number of their data words. -/
def fabricLength (fs : List (FabricFrame wrf)) : ℕ := (fs.map fun f => f.words.length).sum

/-- The frames in the buffer, one behind the other. -/
def stored (base : BitVec rxPktBufAdrsize) :
    List (FabricFrame wrf) → List (BitVec rxPktBufAdrsize × BitVec 17)
  | [] => []
  | f :: fs => placed base 0 (endMarked f.words) ++
      stored (base + BitVec.ofNat rxPktBufAdrsize f.words.length) fs

/-- A word that leaves meets the `Full` of one of the cycles. -/
theorem exists_full_of_mem_pass {x : BitVec 17 × Bool} (h : x ∈ pass wrf p ins) :
    ∃ i ∈ ins, x.2 = i.full := by
  induction ins generalizing p with
  | nil => cases h
  | cons i ins ih =>
    rw [pass, List.mem_append, Option.mem_toList] at h
    rcases h with h | h
    · unfold leave at h
      split at h
      · obtain ⟨w, -, rfl⟩ := Option.mem_map.1 h
        exact ⟨i, by simp, rfl⟩
      · cases h
    · obtain ⟨j, hj, hx⟩ := ih h
      exact ⟨j, by simp [hj], hx⟩

/-- Frames in a row, the buffer never full. -/
theorem run_frames (h : Between wrf base s) (hfull : ∀ f ∈ fs, ∀ i ∈ f.cycles, i.full = false) :
    Between wrf (base + BitVec.ofNat _ (fabricLength fs))
        (run (RxWriteSide.step wrf) s (fabricCycles fs)) ∧
      (trace (RxWriteSide.step wrf) s (fabricCycles fs)).filterMap (RxWriteSide.written wrf) =
        stored base fs := by
  induction fs generalizing s base with
  | nil =>
    refine ⟨?_, rfl⟩
    simpa [fabricLength, fabricCycles] using h
  | cons f fs ih =>
    obtain ⟨hf, hfs⟩ := List.forall_mem_cons.1 hfull
    have hkept := f.kept_pass fun x hx => by
      obtain ⟨i, hi, hx⟩ := exists_full_of_mem_pass hx
      rw [hx, hf i hi]
    obtain ⟨hbetween, -, hwritten, -⟩ := f.run_cycles h
    rw [hkept, length_endMarked] at hbetween
    rw [hkept] at hwritten
    obtain ⟨hrest, hthen⟩ := ih hbetween hfs
    have hcycles : fabricCycles (f :: fs) = f.cycles ++ fabricCycles fs := rfl
    have hsum : fabricLength (f :: fs) = f.words.length + fabricLength fs := rfl
    rw [hcycles, run_append, trace_append, List.filterMap_append, hwritten, hthen, hsum,
      BitVec.ofNat_add, ← BitVec.add_assoc]
    exact ⟨hrest, rfl⟩

/-- **What the fabric brings is in the buffer**: with the buffer never full
the words written are the data words of the frames, in order and at
consecutive addresses, the last one of each frame marked; and the packet
pointer has moved behind them. -/
theorem framing (wrf : WrFabric) (s : RxWriteSide ram) (fs : List (FabricFrame wrf))
    (hfull : ∀ f ∈ fs, ∀ i ∈ f.cycles, i.full = false) :
    (trace (RxWriteSide.step wrf) s.reset (fabricCycles fs)).filterMap
        (RxWriteSide.written wrf) = stored 0 fs ∧
      ∀ i, (((run (RxWriteSide.step wrf) s.reset (fabricCycles fs)).step wrf i).sm.pktPtr =
        BitVec.ofNat rxPktBufAdrsize (fabricLength fs)) := by
  obtain ⟨hbetween, hwritten⟩ := run_frames (between_reset (s := s)) hfull
  refine ⟨hwritten, fun i => ?_⟩
  rw [hbetween.settle.1]
  exact zero_add _

/-- A fabric with three addresses. -/
def sampleFabric : WrFabric := ⟨0, 1, 2, by decide, by decide⟩

/-- A frame of two words, with a gap between them. -/
def sampleFabricFrame (full : Bool) : FabricFrame sampleFabric where
  status := [{ cyc := true, stb := true, adr := 2 }]
  data := [{ cyc := true, stb := true, dat := 0xA1 }, { cyc := true },
    { cyc := true, stb := true, dat := 0xA2, full := full }]
  oob := [{ cyc := true, stb := true, adr := 1 }]
  gap := [{}]
  cyc_burst := by decide +revert
  status_adr := by decide
  data_adr := by decide +revert
  oob_adr := by decide
  cyc_gap := by decide
  gap_ne := by decide
  short := by decide +revert

/-- A machine with an empty buffer. -/
def sampleWriteSide : RxWriteSide (array rxPktBufAdrsize 17) where
  sm := RxMac2Buf.reset
  buffer := (fun _ => 0, 0)

/-- Two such frames. -/
theorem framing_sample :
    (trace (RxWriteSide.step sampleFabric) sampleWriteSide.reset
        (fabricCycles [sampleFabricFrame false, sampleFabricFrame false])).filterMap
        (RxWriteSide.written sampleFabric) =
      [(0, packetWord false 0xA1), (1, packetWord true 0xA2),
        (2, packetWord false 0xA1), (3, packetWord true 0xA2)] :=
  (framing sampleFabric sampleWriteSide [sampleFabricFrame false, sampleFabricFrame false]
    (by decide)).1.trans (by decide)

/-! ## Overflow -/

/-- Whole frame or nothing: a packet pointer that moves has the whole frame
behind it, and with an overflow it does not move. The pointer before and
after the frame is read one cycle later, when it has settled. -/
def WholeOrNothing (wrf : WrFabric) (s : RxWriteSide ram) (f : FabricFrame wrf) : Prop :=
  ∀ i i', ((((run (RxWriteSide.step wrf) s f.cycles).step wrf i').sm.pktPtr ≠
        (s.step wrf i).sm.pktPtr →
      ((run (RxWriteSide.step wrf) s f.cycles).step wrf i').sm.pktPtr =
          (s.step wrf i).sm.pktPtr + BitVec.ofNat rxPktBufAdrsize f.words.length ∧
        ram.Holds (run (RxWriteSide.step wrf) s f.cycles).buffer (s.step wrf i).sm.pktPtr 0
          (endMarked f.words)) ∧
    ((∃ c ∈ trace (RxWriteSide.step wrf) s f.cycles, c.1.sm.overflow wrf c.2 = true) →
      ((run (RxWriteSide.step wrf) s f.cycles).step wrf i').sm.pktPtr =
        (s.step wrf i).sm.pktPtr))

/-- All words of a frame meet the same `Full` when they leave the pipeline. -/
def FabricFrame.SameFull (f : FabricFrame wrf) : Prop :=
  ∀ x ∈ pass wrf none f.cycles, ∀ y ∈ pass wrf none f.cycles, x.2 = y.2

/-- An overflow is a word that meets `Full`. -/
theorem exists_overflow (h : Between wrf base s) :
    (∃ c ∈ trace (RxWriteSide.step wrf) s f.cycles, c.1.sm.overflow wrf c.2 = true) ↔
      ∃ x ∈ pass wrf none f.cycles, x.2 = true := by
  obtain ⟨-, -, -, hleaves⟩ := f.run_cycles h
  rw [← hleaves]
  constructor
  · rintro ⟨c, hc, hover⟩
    rw [overflow_eq, Option.any_eq_true] at hover
    obtain ⟨x, hx, hfull⟩ := hover
    exact ⟨x, List.mem_filterMap.2 ⟨c, hc, hx⟩, hfull⟩
  · rintro ⟨x, hx, hfull⟩
    obtain ⟨c, hc, hx⟩ := List.mem_filterMap.1 hx
    refine ⟨c, hc, ?_⟩
    rw [overflow_eq, Option.any_eq_true]
    exact ⟨x, hx, hfull⟩

/-- A frame is kept or lost as a whole where its words meet the same `Full`,
and only there. -/
theorem wholeOrNothing_iff (h : Between wrf base s) : WholeOrNothing wrf s f ↔ f.SameFull := by
  obtain ⟨hbetween, hheld, -, -⟩ := f.run_cycles h
  have hshort : f.words.length ≤ maxReservPktBuf := f.short
  have hbuffer : maxReservPktBuf < 2 ^ rxPktBufAdrsize := by decide
  have hlength := f.length_pass
  have hkept : (kept (pass wrf none f.cycles)).length ≤ _ := length_kept_le
  have hbefore : ∀ i, (s.step wrf i).sm.pktPtr = base := fun i => h.settle.1
  have hafter : ∀ i, ((run (RxWriteSide.step wrf) s f.cycles).step wrf i).sm.pktPtr =
      base + BitVec.ofNat _ (kept (pass wrf none f.cycles)).length := fun i => hbetween.settle.1
  unfold WholeOrNothing
  simp only [hbefore, hafter, exists_overflow h]
  constructor
  · intro hwhole
    have hdrop := (hwhole {} {}).2
    -- a word that is lost and one that is kept do not go together
    have hmixed : ∀ x ∈ pass wrf none f.cycles, ∀ y ∈ pass wrf none f.cycles,
        x.2 = true → y.2 = false → False := by
      intro x hx y hy hxfull hyfull
      have hptr := hdrop ⟨x, hx, hxfull⟩
      have hzero : (kept (pass wrf none f.cycles)).length = 0 :=
        (RecordRing.add_ofNat_inj (by omega) (by omega)).1 (hptr.trans (add_zero base).symm)
      have hmem : y.1 ∈ kept (pass wrf none f.cycles) :=
        List.mem_map_of_mem (List.mem_filter.2 ⟨hy, by rw [hyfull, Bool.not_false]⟩)
      rw [List.length_eq_zero_iff.1 hzero] at hmem
      cases hmem
    intro x hx y hy
    cases hxfull : x.2 <;> cases hyfull : y.2
    · rfl
    · exact (hmixed y hy x hx hyfull hxfull).elim
    · exact (hmixed x hx y hy hxfull hyfull).elim
    · rfl
  · intro hsame i i'
    by_cases hlost : ∃ x ∈ pass wrf none f.cycles, x.2 = true
    · -- all words are lost
      obtain ⟨x, hx, hxfull⟩ := hlost
      have hnone : kept (pass wrf none f.cycles) = [] := by
        rw [kept, List.map_eq_nil_iff, List.filter_eq_nil_iff]
        intro y hy
        rw [hsame y hy x hx, hxfull]
        decide
      rw [hnone]
      have hstay : base + BitVec.ofNat rxPktBufAdrsize ([] : List (BitVec 17)).length = base :=
        add_zero base
      exact ⟨fun hmove => absurd hstay hmove, fun _ => hstay⟩
    · have hall := f.kept_pass fun x hx => by
        by_contra hfull
        exact hlost ⟨x, hx, Bool.eq_true_of_not_eq_false hfull⟩
      rw [hall] at hheld ⊢
      rw [length_endMarked]
      exact ⟨fun _ => ⟨rfl, hheld⟩, fun hover => absurd hover hlost⟩

/-- After any frames the machine is between two frames. -/
theorem exists_between (h : Between wrf base s) :
    ∃ base', Between wrf base' (run (RxWriteSide.step wrf) s (fabricCycles fs)) := by
  induction fs generalizing s base with
  | nil => exact ⟨base, h⟩
  | cons f fs ih =>
    have hcycles : fabricCycles (f :: fs) = f.cycles ++ fabricCycles fs := rfl
    rw [hcycles, run_append]
    exact ih (f.run_cycles h).1

theorem exists_between_reset (wrf : WrFabric) (s : RxWriteSide ram)
    (fs : List (FabricFrame wrf)) :
    ∃ base, Between wrf base (run (RxWriteSide.step wrf) s.reset (fabricCycles fs)) :=
  exists_between between_reset

/-- **Whole frames or nothing**, over frames in a row: each of them is kept
or lost as a whole if and only if the words of each meet the same `Full`. -/
theorem whole_or_nothing (wrf : WrFabric) (s : RxWriteSide ram) (fs : List (FabricFrame wrf)) :
    (∀ before f rest, fs = before ++ f :: rest →
      WholeOrNothing wrf (run (RxWriteSide.step wrf) s.reset (fabricCycles before)) f) ↔
      ∀ f ∈ fs, f.SameFull := by
  constructor
  · intro hwhole f hf
    obtain ⟨before, rest, hfs⟩ := List.append_of_mem hf
    obtain ⟨base, hbetween⟩ := exists_between_reset wrf s before
    exact (wholeOrNothing_iff hbetween).1 (hwhole before f rest hfs)
  · rintro hsame before f rest rfl
    obtain ⟨base, hbetween⟩ := exists_between_reset wrf s before
    exact (wholeOrNothing_iff hbetween).2 (hsame f (by simp))

/-- A full buffer that gets room behind the first word of a frame: the second
word is a packet of its own. -/
theorem part_of_frame :
    ¬ WholeOrNothing sampleFabric sampleWriteSide.reset (sampleFabricFrame true) := by
  intro hwhole
  have hmoved := (hwhole {} {}).2 (by decide)
  revert hmoved
  decide

end Frames

end Ipmux

end WrCalibration
