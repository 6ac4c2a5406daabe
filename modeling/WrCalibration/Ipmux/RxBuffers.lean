import WrCalibration.Ipmux.PacketRing
import WrCalibration.Ipmux.PauseReq
import WrCalibration.Ipmux.RxFraming
import WrCalibration.Ipmux.RxPass

/-!
# The receive buffers

`RxBuffers` connects `rx_mac2buf`, the packet buffer with its flags, and
`rx_buf2data` to one machine. Its buffer is a queue of frames
(`PacketRing`): the write side adds one at the end of each fabric cycle,
the read side takes the first one out at the end of a pass. `Buffered`
says what is in the queue, how many cycles the reader needs for it, and
what each stream is still to get; the step lemmas say what one clock edge
does to these.
-/

namespace WrCalibration

namespace Ipmux

open Clocked GenericDpram RxBuf2Data

/-! ## The machine -/

/-- The inputs of a cycle: the fabric, the full flags of the streams, the
registers, and the acknowledge of a pause request. The full flag and the
read address that go with the fabric are set inside. -/
structure RxBuffersInput where
  snk : SnkInput
  full : Streams := fun _ => false
  ethRegs : EthRegs
  pauseAck : Bool := false

/-- `RxBuffers` -/
structure RxBuffers (ram : GenericDpram rxPktBufAdrsize 17) where
  mac : RxMac2Buf
  sm : RxBuf2Data
  pause : PauseReqLogic
  buffer : ram.State

namespace RxBuffers

variable {ram : GenericDpram rxPktBufAdrsize 17} (wrf : WrFabric) (s : RxBuffers ram)
  (c : RxBuffersInput)

/-- `Empty0` and `Full_net`. -/
def empty : Bool := PktBufFlags.empty s.sm.pktPtr s.mac.pktPtr

@[inherit_doc empty] def fullNet : Bool := PktBufFlags.full s.sm.pktPtr s.mac.pktPtr

/-- What `rx_mac2buf` sees. -/
def snkInput : SnkInput := { c.snk with full := s.fullNet, rdAddr := s.sm.rdAddr }

/-- What `rx_buf2data` sees, and what is written to the buffer. -/
def rxInput : RxInput where
  empty := s.empty
  full := c.full
  ethRegs := c.ethRegs
  we := s.mac.weInt wrf (s.snkInput c)
  wrAddr := s.mac.wrAddr
  d := packetWord (s.mac.eof wrf (s.snkInput c)) s.mac.qDataP1

/-- What `PauseReqLogic` sees. -/
def pauseInput : PauseInput rxPktBufAdrsize where
  pktRdPtr := s.sm.pktPtr
  pktWrPtr := s.mac.pktPtr
  pauseAck := c.pauseAck

/-- The reader with the buffer. -/
def readSide : RxReadSide ram := ⟨s.sm, s.buffer⟩

/-- **One clock edge** of `RxBuffers`. -/
def step : RxBuffers ram where
  mac := s.mac.step wrf (s.snkInput c)
  sm := s.sm.step s.empty (fullout s.sm.streamIntern c.full) (packetEop (ram.qb s.buffer))
    (packetData (ram.qb s.buffer)) c.ethRegs
  pause := s.pause.step (s.pauseInput c)
  buffer := ram.step s.buffer (s.mac.weInt wrf (s.snkInput c)) s.mac.wrAddr
    (packetWord (s.mac.eof wrf (s.snkInput c)) s.mac.qDataP1) s.sm.rdAddr

/-- A reset of the machines; the buffer keeps its words. -/
def reset : RxBuffers ram where
  mac := RxMac2Buf.reset
  sm := s.sm.reset
  pause := PauseReqLogic.reset
  buffer := s.buffer

/-- What a cycle writes to a stream. -/
def written (k : Fin (numUdpPrts + 1)) (x : RxBuffers ram × RxBuffersInput) : Option Dbus :=
  RxReadSide.written k (x.1.readSide, x.1.rxInput wrf x.2)

/-- A word meets the full flag, and is lost. -/
def overflow (x : RxBuffers ram × RxBuffersInput) : Bool :=
  x.1.mac.overflow wrf (x.1.snkInput x.2)

/-- An edge is one of the read side. -/
theorem readSide_step : (s.step wrf c).readSide = s.readSide.step (s.rxInput wrf c) := rfl

end RxBuffers

/-! ## The writer -/

/-- **What the writer knows** of the fabric: whether it was in a cycle, the
word that waits, and whether a frame has ended in the cycle before. -/
structure Writer (wrf : WrFabric) (cyc : Bool) (p : Option Word) (good : Bool) (m : RxMac2Buf) :
    Prop where
  cyc : m.snkCycD0 = cyc
  pipe : Pipe wrf p m
  goodFrame : m.goodFrame = good
  badFrame : m.badFrame = false
  ended : good = true → p = none

section Writer

variable {wrf : WrFabric} {cyc good : Bool} {p : Option Word} {m : RxMac2Buf} {i : SnkInput}

theorem Writer.step (h : Writer wrf cyc p good m) :
    Writer wrf i.cyc (hold wrf p i) (cyc && !i.cyc) (m.step wrf i) := by
  refine ⟨rfl, h.pipe.step, ?_, rfl, fun hend => ?_⟩
  · rw [← h.cyc]
    rfl
  · have hcyc : i.cyc = false := by
      rw [Bool.and_eq_true, Bool.not_eq_true'] at hend
      exact hend.2
    simp [hold, dataWord, RxMac2Buf.snkValid, ends, hcyc]

/-- Nothing leaves the pipeline, or a word that meets the full flag or not. -/
theorem Writer.weInt_eq (h : Writer wrf cyc p good m) :
    m.weInt wrf i = (leave wrf p i).any fun x => !x.2 := by
  rw [Ipmux.weInt_eq, h.pipe.leaves_eq]

theorem leave_eq_some {x : BitVec 17 × Bool} (h : leave wrf p i = some x) : x.2 = i.full := by
  unfold leave at h
  split at h
  · obtain ⟨w, -, rfl⟩ := Option.mem_map.1 h
    rfl
  · cases h

end Writer

/-! ## The reader -/

section Draining

variable {ram : GenericDpram rxPktBufAdrsize 17} {regs : EthRegs} {frame : List Word}
  {rd : BitVec rxPktBufAdrsize} {s : RxReadSide ram} {c : RxInput} {ps : List (List Word)}
  {w : ℕ} {t : Fin (numUdpPrts + 1) → List Dbus}

/-- The cycles that frames need. -/
def work (regs : EthRegs) (ps : List (List Word)) : ℕ := (ps.map (passLength regs)).sum

/-- What a stream gets of frames. -/
def deliveries (regs : EthRegs) (ps : List (List Word)) (k : Fin (numUdpPrts + 1)) : List Dbus :=
  ps.flatMap (delivered regs k)

/-- **Where the reader stands** in the queue: the cycles it needs for it, and
what each stream is still to get. -/
inductive Draining (regs : EthRegs) (rd : BitVec rxPktBufAdrsize) : List (List Word) → ℕ →
    (Fin (numUdpPrts + 1) → List Dbus) → RxReadSide ram → Prop
  | waiting {ps : List (List Word)} {s : RxReadSide ram} : Waiting rd s.sm →
    Draining regs rd ps (work regs ps) (deliveries regs ps) s
  | passing {frame : List Word} {ps : List (List Word)} {left done : ℕ} {s : RxReadSide ram} :
    0 < left → Passing regs frame rd left done s →
    Draining regs rd (frame :: ps) (left + work regs ps)
      (fun k => (delivered regs k frame).drop done ++ deliveries regs ps k) s

theorem length_delivered (hframe : Legible regs frame) (k : Fin (numUdpPrts + 1)) :
    (delivered regs k frame).length ≤ frame.length := by
  cases hport : modPort regs frame with
  | some j =>
    have hclaimed := hframe.claimed j hport
    rw [delivered_of_some hport]
    split
    · rw [length_payloadOut hclaimed]
      omega
    · exact Nat.zero_le _
  | none =>
    rw [delivered_of_none hport]
    split
    · rw [List.length_map, length_endMarked]
    · exact Nat.zero_le _

/-- A pass with no cycle left is over. -/
theorem Passing.behind_of_eq_zero {left done : ℕ} (h : Passing regs frame rd left done s)
    (hframe : Legible regs frame) (hleft : left = 0) :
    done = frame.length ∧
      Waiting (rd + BitVec.ofNat rxPktBufAdrsize frame.length) s.sm := by
  have hlong := hframe.long
  have hlength : frame.length + 4 ≤ passLength regs frame := length_le_passLength
  cases h with
  | reading _ hm _ => omega
  | headersSeen _ => omega
  | picked _ _ => omega
  | unpicked _ _ => omega
  | transfer _ _ hat =>
    have hle := hat.pos_le
    omega
  | @forwarding z full _ _ hdone hat =>
    have hpos := hat.pos
    cases full with
    | false =>
      change z - 1 < _ at hdone
      omega
    | true =>
      change z < _ at hdone
      omega
  | behind h => exact ⟨rfl, h⟩

theorem Passing.pktPtr {left done : ℕ} (h : Passing regs frame rd left done s)
    (hleft : 0 < left) : s.sm.pktPtr = rd := by
  cases h with
  | reading _ _ h => exact h.pktPtr
  | headersSeen h =>
    obtain ⟨u, hread⟩ := h.read
    exact hread.pktPtr
  | picked _ h => exact h.pktPtr
  | unpicked _ h => exact h.pktPtr
  | transfer _ _ h =>
    cases h with
    | transferring _ h => exact h.pktPtr
    | stalled _ h => exact h.pktPtr
  | forwarding _ _ h => exact h.pktPtr
  | behind _ => exact absurd hleft (Nat.lt_irrefl _)

theorem Draining.pktPtr (h : Draining regs rd ps w t s) : s.sm.pktPtr = rd := by
  cases h with
  | waiting h => exact h.pktPtr
  | passing hleft h => exact h.pktPtr hleft

/-- A frame at the end of the queue. -/
theorem Draining.concat (h : Draining regs rd ps w t s) (frame : List Word) :
    Draining regs rd (ps ++ [frame]) (w + passLength regs frame)
      (fun k => t k ++ delivered regs k frame) s := by
  have hwork : ∀ ps, work regs (ps ++ [frame]) = work regs ps + passLength regs frame :=
    fun ps => by simp [work]
  have hdeliveries : ∀ ps k, deliveries regs (ps ++ [frame]) k =
      deliveries regs ps k ++ delivered regs k frame := fun ps k => by simp [deliveries]
  cases h with
  | waiting h =>
    simp only [← hwork, ← hdeliveries]
    exact .waiting h
  | passing hleft h =>
    simp only [List.cons_append, Nat.add_assoc, List.append_assoc, ← hwork, ← hdeliveries]
    exact .passing hleft h

/-- What a cycle of the reader comes to: the queue stays, or its first frame
is out; and the work gets less where the stream of the first frame has
room. -/
structure DrainStep (regs : EthRegs) (rd : BitVec rxPktBufAdrsize) (ps : List (List Word)) (w : ℕ)
    (t : Fin (numUdpPrts + 1) → List Dbus) (s : RxReadSide ram) (c : RxInput)
    (rd' : BitVec rxPktBufAdrsize) (ps' : List (List Word)) (w' : ℕ)
    (t' : Fin (numUdpPrts + 1) → List Dbus) : Prop where
  draining : Draining regs rd' ps' w' t' (s.step c)
  queue : rd' = rd ∧ ps' = ps ∨ w' < w ∧
    ∃ frame, ps = frame :: ps' ∧ rd' = rd + BitVec.ofNat rxPktBufAdrsize frame.length
  le : w' ≤ w
  room : (∀ frame ∈ ps.head?, c.full (streamOf regs frame) = false) → w' = w - 1
  written : ∀ k, t k = (RxReadSide.written k (s, c)).toList ++ t' k

/-- What a reader needs in a cycle. -/
structure DrainCycle (regs : EthRegs) (rd : BitVec rxPktBufAdrsize) (ps : List (List Word))
    (s : RxReadSide ram) (c : RxInput) : Prop where
  regs_eq : c.ethRegs = regs
  empty : c.empty = decide (ps = [])
  legible : ∀ frame ∈ ps, Legible regs frame
  onePort : ∀ frame ∈ ps, OnePort regs frame
  padding : ∀ frame ∈ ps, RoomForPadding regs frame c.full
  spares : ∀ frame ∈ ps.head?, Spares rd frame c
  held : ∀ frame ∈ ps.head?, ram.Holds s.buffer rd 0 (endMarked frame)

/-- **One cycle of the reader.** -/
theorem Draining.step (h : Draining regs rd ps w t s) (hc : DrainCycle regs rd ps s c) :
    ∃ rd' ps' w' t', DrainStep regs rd ps w t s c rd' ps' w' t' := by
  cases h with
  | waiting h =>
    have hquiet : ∀ k, deliveries regs ps k =
        (RxReadSide.written k (s, c)).toList ++ deliveries regs ps k := fun k => by
      rw [written_of_quiet h.wrReqIntern, Option.toList_none, List.nil_append]
    cases ps with
    | nil =>
      have hsm : (s.step c).sm = s.sm.initialise := by
        simp [RxReadSide.step, RxBuf2Data.step, h.state, hc.empty]
      have hwait : Waiting rd (s.step c).sm := by
        rw [hsm, ← h.pktPtr]
        exact waiting_initialise h.state
      exact ⟨rd, [], _, _, .waiting hwait, .inl ⟨rfl, rfl⟩, Nat.le_refl _, fun _ => rfl, hquiet⟩
    | cons frame ps =>
      have hlong := (hc.legible frame (by simp)).long
      have hlength : frame.length + 4 ≤ passLength regs frame := length_le_passLength
      have hempty : c.empty = false := by rw [hc.empty, decide_eq_false (List.cons_ne_nil _ _)]
      have hread := h.reading hempty (hc.held frame rfl) (hc.spares frame rfl) (by omega)
      have hwork : work regs (frame :: ps) = passLength regs frame + work regs ps := by
        simp [work]
      refine ⟨rd, frame :: ps, _, _, .passing ?_ (.reading (by decide) (by decide) hread),
        .inl ⟨rfl, rfl⟩, ?_, fun _ => ?_, fun k => ?_⟩
      · omega
      · omega
      · omega
      · rw [written_of_quiet h.wrReqIntern, Option.toList_none, List.nil_append, List.drop_zero]
        rfl
  | @passing frame ps left done _ hleft h =>
    have hframe := hc.legible frame (by simp)
    obtain ⟨left', done', hstep⟩ := h.step hframe (hc.spares frame rfl) hleft
      (hc.onePort frame (by simp)) hc.regs_eq (hc.padding frame (by simp))
    have hle := hstep.le
    rcases Nat.eq_zero_or_pos left' with rfl | hleft'
    · -- the pass is over
      obtain ⟨rfl, hwait⟩ := hstep.passing.behind_of_eq_zero hframe rfl
      refine ⟨_, ps, _, _, .waiting hwait, .inr ⟨by omega, frame, rfl, rfl⟩, by omega,
        fun hroom => ?_, fun k => ?_⟩
      · have hone := hstep.room (hroom frame rfl)
        omega
      · rw [hstep.written, List.drop_eq_nil_of_le (length_delivered hframe k), List.append_nil]
    · refine ⟨rd, frame :: ps, _, _, .passing hleft' hstep.passing, .inl ⟨rfl, rfl⟩, by omega,
        fun hroom => ?_, fun k => ?_⟩
      · have hone := hstep.room (hroom frame rfl)
        omega
      · rw [hstep.written, List.append_assoc]

/-- The queue is not longer than the frame that is read and the work. -/
theorem Draining.length_le (h : Draining regs rd ps w t s)
    (hlegible : ∀ frame ∈ ps, Legible regs frame) :
    (packed ps).length ≤ maxReservPktBuf + w := by
  have hwork : ∀ ps, (packed ps).length ≤ work regs ps := by
    intro ps
    induction ps with
    | nil => exact Nat.le_refl _
    | cons frame ps ih =>
      have hlength : frame.length + 4 ≤ passLength regs frame := length_le_passLength
      have hcons : work regs (frame :: ps) = passLength regs frame + work regs ps := by
        simp [work]
      rw [length_packed_cons]
      omega
  cases h with
  | waiting _ =>
    have hle := hwork ps
    omega
  | @passing frame ps _ _ _ _ _ =>
    have hshort := (hlegible frame (by simp)).short
    have hle := hwork ps
    rw [length_packed_cons]
    omega

end Draining

/-! ## The queue -/

section Buffered

variable {ram : GenericDpram rxPktBufAdrsize 17} {wrf : WrFabric} {regs : EthRegs}
  {frame : List Word} {fs ps : List (List Word)} {cyc good : Bool} {p : Option Word}
  {begun : List (BitVec 17)} {w : ℕ} {t : Fin (numUdpPrts + 1) → List Dbus} {s : RxBuffers ram}
  {c : RxBuffersInput}

/-- **The receive buffers** with frames in the queue, and what has come of the
next one. -/
structure Buffered (wrf : WrFabric) (regs : EthRegs) (fs : List (List Word)) (cyc : Bool)
    (p : Option Word) (good : Bool) (ps : List (List Word)) (begun : List (BitVec 17)) (w : ℕ)
    (t : Fin (numUdpPrts + 1) → List Dbus) (s : RxBuffers ram) : Prop where
  writer : Writer wrf cyc p good s.mac
  ring : PacketRing ram s.buffer s.sm.pktPtr s.mac.pktPtr s.mac.offset ps begun
  reader : Draining regs s.sm.pktPtr ps w t s.readSide
  queued : ps ⊆ fs

/-- **Frames that the machine can follow**, and cycles that let it: the
registers keep their values, no two streams have the port of a frame, and the
stream of a frame with padding has room. -/
structure Steady (regs : EthRegs) (fs : List (List Word)) (c : RxBuffersInput) : Prop where
  regs_eq : c.ethRegs = regs
  legible : ∀ frame ∈ fs, Legible regs frame
  onePort : ∀ frame ∈ fs, OnePort regs frame
  padding : ∀ frame ∈ fs, RoomForPadding regs frame c.full

theorem Steady.mono {fs' : List (List Word)} (h : Steady regs fs c) (hsub : fs' ⊆ fs) :
    Steady regs fs' c :=
  ⟨h.regs_eq, fun frame hf => h.legible frame (hsub hf), fun frame hf =>
    h.onePort frame (hsub hf), fun frame hf => h.padding frame (hsub hf)⟩

/-- The word that leaves the pipeline in a cycle. -/
def leaving (wrf : WrFabric) (p : Option Word) (i : SnkInput) : List (BitVec 17) :=
  ((leave wrf p i).map Prod.fst).toList

theorem leaving_snkInput : leaving wrf p (s.snkInput c) = leaving wrf p c.snk := by
  have hdata : dataWord wrf (s.snkInput c) = dataWord wrf c.snk := rfl
  have hends : ends wrf (s.snkInput c) = ends wrf c.snk := rfl
  simp only [leaving, leave, hdata, hends]
  split
  · cases p <;> rfl
  · rfl

/-- The reader's part of an edge. -/
theorem Buffered.drain (h : Buffered wrf regs fs cyc p good ps begun w t s)
    (hc : Steady regs fs c) : ∃ ps' w' t', DrainStep regs s.sm.pktPtr ps w t s.readSide
      (s.rxInput wrf c) (s.step wrf c).sm.pktPtr ps' w' t' := by
  have hlegible : ∀ frame ∈ ps, Legible regs frame := fun frame hf =>
    hc.legible frame (h.queued hf)
  have hlong : ∀ frame ∈ ps, 0 < frame.length := fun frame hf =>
    Nat.zero_lt_of_lt (hlegible frame hf).long
  obtain ⟨rd', ps', w', t', hstep⟩ := h.reader.step (c := s.rxInput wrf c)
    { regs_eq := hc.regs_eq
      empty := h.ring.empty_eq hlong
      legible := hlegible
      onePort := fun frame hf => hc.onePort frame (h.queued hf)
      padding := fun frame hf => hc.padding frame (h.queued hf)
      spares := by
        intro frame hhead hwe k hk
        obtain ⟨ps', rfl⟩ : ∃ ps', ps = frame :: ps' := List.head?_eq_some_iff.1 hhead
        exact h.ring.next_ne hk
      held := by
        intro frame hhead
        obtain ⟨ps', rfl⟩ : ∃ ps', ps = frame :: ps' := List.head?_eq_some_iff.1 hhead
        exact h.ring.held_head }
  obtain rfl : (s.step wrf c).sm.pktPtr = rd' := hstep.draining.pktPtr
  exact ⟨ps', w', t', hstep⟩

/-- Where nothing is lost a word that leaves is written, and there is room for
it. -/
theorem Buffered.push (h : Buffered wrf regs fs cyc p false ps begun w t s)
    (hkept : RxBuffers.overflow wrf (s, c) = false)
    (hshort : begun.length + (leaving wrf p c.snk).length ≤ maxReservPktBuf) :
    PacketRing ram (s.step wrf c).buffer s.sm.pktPtr (s.step wrf c).mac.pktPtr
      (s.step wrf c).mac.offset ps (begun ++ leaving wrf p c.snk) := by
  have hsize : maxReservPktBuf < 2 ^ rxPktBufAdrsize := by decide
  have hwe : s.mac.weInt wrf (s.snkInput c) = _ := h.writer.weInt_eq
  have hlost : s.mac.overflow wrf (s.snkInput c) = false := hkept
  have hleaves := h.writer.pipe.leaves_eq (i := s.snkInput c)
  rw [overflow_eq, hleaves] at hlost
  rw [← leaving_snkInput (s := s)] at hshort ⊢
  change PacketRing ram (ram.step s.buffer _ _ _ _) _ (s.mac.pointers wrf (s.snkInput c)).2
    (s.mac.pointers wrf (s.snkInput c)).1 ps _
  cases hl : leave wrf p (s.snkInput c) with
  | none =>
    rw [hl] at hwe
    have hnone : leaving wrf p (s.snkInput c) = [] := by rw [leaving, hl]; rfl
    have hquiet : s.mac.weInt wrf (s.snkInput c) = false := hwe
    have hpointers : s.mac.pointers wrf (s.snkInput c) = (s.mac.offset, s.mac.pktPtr) := by
      simp [RxMac2Buf.pointers, hquiet, h.writer.goodFrame, h.writer.badFrame]
    rw [hquiet, hpointers, hnone, List.append_nil]
    exact h.ring.keep _ _ _
  | some x =>
    have hnotfull : x.2 = false := by simpa [hl] using hlost
    have hwrite : s.mac.weInt wrf (s.snkInput c) = true := by simp [hwe, hl, hnotfull]
    have hword : leaving wrf p (s.snkInput c) =
        [packetWord (s.mac.eof wrf (s.snkInput c)) s.mac.qDataP1] := by
      rw [leaving, hl, eq_of_leaves (hleaves.trans hl)]
      rfl
    have hpointers : s.mac.pointers wrf (s.snkInput c) = (s.mac.offset + 1, s.mac.pktPtr) := by
      simp [RxMac2Buf.pointers, hwrite]
    have hfull : s.fullNet = false := (leave_eq_some hl).symm.trans hnotfull
    rw [RxBuffers.fullNet, h.ring.full_eq hsize, decide_eq_false_iff_not] at hfull
    rw [hword, List.length_singleton] at hshort
    rw [hwrite, hpointers, hword]
    exact h.ring.push _ _ (by omega)

/-- After the end of a frame nothing is written, and its words are a packet. -/
theorem Buffered.settle (h : Buffered wrf regs fs cyc p true ps begun w t s)
    (hframe : begun = endMarked frame) :
    PacketRing ram (s.step wrf c).buffer s.sm.pktPtr (s.step wrf c).mac.pktPtr
      (s.step wrf c).mac.offset (ps ++ [frame]) [] := by
  have hwe : s.mac.weInt wrf (s.snkInput c) = _ := h.writer.weInt_eq
  rw [h.writer.ended rfl, leave_none] at hwe
  have hquiet : s.mac.weInt wrf (s.snkInput c) = false := hwe
  have hpointers : s.mac.pointers wrf (s.snkInput c) =
      (0, s.mac.pktPtr + BitVec.ofNat rxPktBufAdrsize s.mac.offset) := by
    simp [RxMac2Buf.pointers, hquiet, h.writer.goodFrame]
  change PacketRing ram (ram.step s.buffer _ _ _ _) _ (s.mac.pointers wrf (s.snkInput c)).2
    (s.mac.pointers wrf (s.snkInput c)).1 _ _
  rw [hquiet, hpointers]
  exact (h.ring.keep _ _ _).settle hframe

/-- **One cycle of a frame**, or of the gap behind it. -/
theorem Buffered.step (h : Buffered wrf regs fs cyc p false ps begun w t s)
    (hc : Steady regs fs c) (hkept : RxBuffers.overflow wrf (s, c) = false)
    (hshort : begun.length + (leaving wrf p c.snk).length ≤ maxReservPktBuf) :
    ∃ ps' w' t', Buffered wrf regs fs c.snk.cyc (hold wrf p c.snk) (cyc && !c.snk.cyc) ps'
        (begun ++ leaving wrf p c.snk) w' t' (s.step wrf c) ∧
      DrainStep regs s.sm.pktPtr ps w t s.readSide (s.rxInput wrf c) (s.step wrf c).sm.pktPtr ps'
        w' t' := by
  obtain ⟨ps', w', t', hstep⟩ := h.drain hc
  have hring := h.push hkept hshort
  have hwriter := h.writer.step (i := s.snkInput c)
  have hreader := hstep.draining
  rw [← RxBuffers.readSide_step] at hreader
  refine ⟨ps', w', t', ⟨hwriter, ?_, hreader, ?_⟩, hstep⟩
  · rcases hstep.queue with ⟨hrd, rfl⟩ | ⟨-, frame, rfl, hrd⟩
    · rwa [hrd]
    · rw [hrd]
      exact hring.pop
  · rcases hstep.queue with ⟨-, rfl⟩ | ⟨-, frame, rfl, -⟩
    · exact h.queued
    · exact (List.cons_subset.1 h.queued).2

/-- **The cycle after the end of a frame**: it is the last one of the queue. -/
theorem Buffered.step_settle (h : Buffered wrf regs fs cyc p true ps begun w t s)
    (hc : Steady regs fs c) (hframe : begun = endMarked frame) (hmem : frame ∈ fs) :
    ∃ ps' w' t', Buffered wrf regs fs c.snk.cyc (hold wrf none c.snk) (cyc && !c.snk.cyc)
        (ps' ++ [frame]) [] (w' + passLength regs frame) (fun k => t' k ++ delivered regs k frame)
        (s.step wrf c) ∧
      DrainStep regs s.sm.pktPtr ps w t s.readSide (s.rxInput wrf c) (s.step wrf c).sm.pktPtr ps'
        w' t' := by
  obtain ⟨ps', w', t', hstep⟩ := h.drain hc
  have hring := h.settle (c := c) hframe
  have hreader := hstep.draining.concat frame
  rw [← RxBuffers.readSide_step] at hreader
  refine ⟨ps', w', t', ⟨?_, ?_, hreader, ?_⟩, hstep⟩
  · have hwriter := h.writer.step (i := s.snkInput c)
    rw [h.writer.ended rfl] at hwriter
    exact hwriter
  · rcases hstep.queue with ⟨hrd, rfl⟩ | ⟨-, frame', rfl, hrd⟩
    · rwa [hrd]
    · rw [hrd]
      exact hring.pop
  · refine List.append_subset.2 ⟨?_, by simpa using hmem⟩
    rcases hstep.queue with ⟨-, rfl⟩ | ⟨-, frame', rfl, -⟩
    · exact h.queued
    · exact (List.cons_subset.1 h.queued).2

/-- With little work there is room for two frames of the greatest length. -/
theorem Buffered.not_overflow (h : Buffered wrf regs fs cyc p good ps begun w t s)
    (hlegible : ∀ frame ∈ fs, Legible regs frame)
    (hw : w + 2 * maxReservPktBuf < 2 ^ rxPktBufAdrsize) :
    RxBuffers.overflow wrf (s, c) = false := by
  have hsize : maxReservPktBuf < 2 ^ rxPktBufAdrsize := by decide
  have hlength := h.reader.length_le fun frame hf => hlegible frame (h.queued hf)
  have hfull : s.fullNet = false := by
    rw [RxBuffers.fullNet, h.ring.full_eq hsize, decide_eq_false_iff_not]
    omega
  change s.mac.overflow wrf (s.snkInput c) = false
  rw [RxMac2Buf.overflow]
  change (if s.mac.qValidP1 && s.fullNet then _ else _) = false
  rw [hfull, Bool.and_false]
  rfl

theorem buffered_reset (s : RxBuffers ram) :
    Buffered wrf regs fs false none false [] [] 0 (fun _ => []) s.reset where
  writer := ⟨rfl, ⟨rfl, nofun⟩, rfl, rfl, nofun⟩
  ring := PacketRing.nil
  reader := .waiting ⟨rfl, rfl, rfl, rfl, rfl, rfl, rfl, rfl⟩
  queued := List.nil_subset fs

end Buffered

end Ipmux

end WrCalibration
