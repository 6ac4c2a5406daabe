import WrCalibration.Ipmux.RxBuffers

/-!
# What the receive buffers deliver

Frames on the fabric, with the streams full now and then. Where no word
meets the full flag, each stream gets what is its own of each frame, in
the order of the frames, and nothing else, and in the end all of it
(`delivers`). With room in the streams the reader keeps up with a fabric
that gives each frame as many cycles as its pass takes: then no word meets
the full flag at all (`line_rate`).
-/

namespace WrCalibration

namespace Ipmux

open Clocked GenericDpram

variable {ram : GenericDpram rxPktBufAdrsize 17} {wrf : WrFabric} {regs : EthRegs}
  {frame : List Word} {fs ps : List (List Word)} {cyc good : Bool} {p : Option Word}
  {begun : List (BitVec 17)} {w w' w'' : ℕ} {t t' t'' : Fin (numUdpPrts + 1) → List Dbus}
  {s : RxBuffers ram} {c : RxBuffersInput} {cs : List RxBuffersInput}
  {xs ys : List (RxBuffers ram × RxBuffersInput)}

/-! ## Some cycles -/

/-- **What some cycles come to**: no word is lost, the streams get the next of
what they are to get, and where they have room the work gets less by one in
each cycle. -/
structure Served (wrf : WrFabric) (w : ℕ) (t : Fin (numUdpPrts + 1) → List Dbus)
    (xs : List (RxBuffers ram × RxBuffersInput)) (w' : ℕ)
    (t' : Fin (numUdpPrts + 1) → List Dbus) : Prop where
  le : w' ≤ w
  room : (∀ x ∈ xs, ∀ k, x.2.full k = false) → w' = w - xs.length
  written : ∀ k, t k = xs.filterMap (RxBuffers.written wrf k) ++ t' k
  kept : ∀ x ∈ xs, RxBuffers.overflow wrf x = false

theorem Served.nil : Served wrf w t ([] : List (RxBuffers ram × RxBuffersInput)) w t where
  le := Nat.le_refl w
  room _ := by rw [List.length_nil, Nat.sub_zero]
  written _ := by rw [List.filterMap_nil, List.nil_append]
  kept _ hx := absurd hx List.not_mem_nil

theorem Served.append (h : Served wrf w t xs w' t') (h' : Served wrf w' t' ys w'' t'') :
    Served wrf w t (xs ++ ys) w'' t'' where
  le := h'.le.trans h.le
  room hroom := by
    obtain ⟨hxs, hys⟩ := List.forall_mem_append.1 hroom
    rw [h'.room hys, h.room hxs, List.length_append, Nat.sub_sub]
  written k := by
    rw [h.written, h'.written, List.filterMap_append, List.append_assoc]
  kept := List.forall_mem_append.2 ⟨h.kept, h'.kept⟩

/-- One cycle, from what the reader does in it; a frame that is settled in it
comes behind. -/
theorem DrainStep.served {rd rd' : BitVec rxPktBufAdrsize} {ps' : List (List Word)}
    (h : DrainStep regs rd ps w t s.readSide (s.rxInput wrf c) rd' ps' w' t')
    (hkept : RxBuffers.overflow wrf (s, c) = false) : Served wrf w t [(s, c)] w' t' where
  le := h.le
  room hroom := h.room fun _ _ => hroom (s, c) (by simp) _
  written k := by
    rw [h.written k, List.filterMap_cons, List.filterMap_nil, RxBuffers.written]
    cases RxReadSide.written k (s.readSide, s.rxInput wrf c) <;> rfl
  kept := by simpa using hkept

/-- Nothing is lost in some cycles, or there is little work. -/
def Safe (wrf : WrFabric) (w : ℕ) (xs : List (RxBuffers ram × RxBuffersInput)) : Prop :=
  (∀ x ∈ xs, RxBuffers.overflow wrf x = false) ∨ w + 2 * maxReservPktBuf < 2 ^ rxPktBufAdrsize

theorem Safe.mono (h : Safe wrf w xs) (hw : w' ≤ w) (hys : ys ⊆ xs) : Safe wrf w' ys :=
  h.imp (fun hkept x hx => hkept x (hys hx)) fun hlow => by omega

theorem Buffered.kept (h : Buffered wrf regs fs cyc p good ps begun w t s)
    (hc : Steady regs fs c) (hsafe : Safe wrf w ((s, c) :: xs)) :
    RxBuffers.overflow wrf (s, c) = false :=
  hsafe.elim (fun hkept => hkept _ (by simp)) fun hlow => h.not_overflow hc.legible hlow

/-- **The cycles of a burst**, but for the first one. -/
theorem Buffered.run_burst (h : Buffered wrf regs fs true p false ps begun w t s)
    (hsteady : ∀ c ∈ cs, Steady regs fs c) (hcyc : ∀ c ∈ cs, c.snk.cyc = true)
    (hlen : begun.length + (pass wrf p (cs.map RxBuffersInput.snk)).length ≤ maxReservPktBuf)
    (hsafe : Safe wrf w (trace (RxBuffers.step wrf) s cs)) :
    ∃ ps' w' t', Buffered wrf regs fs true (pend wrf p (cs.map RxBuffersInput.snk)) false ps'
        (begun ++ (pass wrf p (cs.map RxBuffersInput.snk)).map Prod.fst) w' t'
        (run (RxBuffers.step wrf) s cs) ∧
      Served wrf w t (trace (RxBuffers.step wrf) s cs) w' t' := by
  -- the words that have come grow with the run, and the queue changes
  induction cs generalizing s p begun ps w t with
  | nil =>
    refine ⟨ps, w, t, ?_, .nil⟩
    rw [List.map_nil, pass, List.map_nil, List.append_nil]
    exact h
  | cons c cs ih =>
    obtain ⟨hc, hcs⟩ := List.forall_mem_cons.1 hsteady
    obtain ⟨hon, hcyc⟩ := List.forall_mem_cons.1 hcyc
    have hleaving : (leaving wrf p c.snk).length = (leave wrf p c.snk).toList.length := by
      rw [leaving]
      cases leave wrf p c.snk <;> rfl
    rw [List.map_cons, pass, List.length_append] at hlen
    have hkept := h.kept hc hsafe
    obtain ⟨ps', w', t', hnext, hstep⟩ := h.step hc hkept (by omega)
    rw [hon] at hnext
    have hserved := hstep.served hkept
    obtain ⟨ps'', w'', t'', hbuffered, hrest⟩ := ih hnext hcs hcyc (by
      rw [List.length_append]
      omega) (hsafe.mono hserved.le (List.subset_cons_self _ _))
    refine ⟨ps'', w'', t'', ?_, hserved.append hrest⟩
    have hwords : begun ++ (pass wrf p ((c :: cs).map RxBuffersInput.snk)).map Prod.fst =
        begun ++ leaving wrf p c.snk ++
          (pass wrf (hold wrf p c.snk) (cs.map RxBuffersInput.snk)).map Prod.fst := by
      rw [List.map_cons, pass, List.map_append, List.append_assoc, leaving]
      cases leave wrf p c.snk <;> rfl
    rw [hwords]
    exact hbuffered

/-! ## Between two frames -/

/-- **Between two frames**: the last one is in the queue, or will be after the
next edge. -/
inductive Settling (wrf : WrFabric) (regs : EthRegs) (fs : List (List Word)) : ℕ →
    (Fin (numUdpPrts + 1) → List Dbus) → RxBuffers ram → Prop
  | settled {ps : List (List Word)} {w : ℕ} {t : Fin (numUdpPrts + 1) → List Dbus}
    {s : RxBuffers ram} : Buffered wrf regs fs false none false ps [] w t s →
    Settling wrf regs fs w t s
  | ended {frame : List Word} {ps : List (List Word)} {w : ℕ}
    {t : Fin (numUdpPrts + 1) → List Dbus} {s : RxBuffers ram} : frame ∈ fs →
    Buffered wrf regs fs false none true ps (endMarked frame) w t s →
    Settling wrf regs fs (max w 1 + passLength regs frame)
      (fun k => t k ++ delivered regs k frame) s

/-- With nothing in the pipeline nothing is lost. -/
theorem overflow_of_pipe_none {m : RxMac2Buf} {i : SnkInput} (h : Pipe wrf none m) :
    m.overflow wrf i = false := by
  rw [RxMac2Buf.overflow, h.valid]
  rfl

/-- A cycle between two frames, or the first one of a burst. -/
theorem Settling.step (h : Settling wrf regs fs w t s) (hc : Steady regs fs c) :
    ∃ ps' w' t', Buffered wrf regs fs c.snk.cyc (hold wrf none c.snk) false ps' [] w' t'
      (s.step wrf c) ∧ Served wrf w t [(s, c)] w' t' := by
  cases h with
  | @settled ps _ _ _ h =>
    have hkept : RxBuffers.overflow wrf (s, c) = false := overflow_of_pipe_none h.writer.pipe
    have hnone : leaving wrf none c.snk = [] := by rw [leaving, leave_none]; rfl
    obtain ⟨ps', w', t', hnext, hstep⟩ := h.step hc hkept (by rw [hnone]; exact Nat.zero_le _)
    rw [hnone] at hnext
    exact ⟨ps', w', t', hnext, hstep.served hkept⟩
  | @ended frame ps w t _ hmem h =>
    have hkept : RxBuffers.overflow wrf (s, c) = false := overflow_of_pipe_none h.writer.pipe
    obtain ⟨ps', w', t', hnext, hstep⟩ := h.step_settle hc rfl hmem
    have hserved := hstep.served hkept
    have hle := hserved.le
    refine ⟨_, _, _, hnext, ⟨by omega, fun hroom => ?_, fun k => ?_, hserved.kept⟩⟩
    · have hone := hserved.room hroom
      rw [List.length_singleton] at hone ⊢
      omega
    · rw [hserved.written k, List.append_assoc]

/-- The cycles between two frames. -/
theorem Settling.run_gap (h : Settling wrf regs fs w t s) (hsteady : ∀ c ∈ cs, Steady regs fs c)
    (hcyc : ∀ c ∈ cs, c.snk.cyc = false) :
    ∃ w' t', Settling wrf regs fs w' t' (run (RxBuffers.step wrf) s cs) ∧
      Served wrf w t (trace (RxBuffers.step wrf) s cs) w' t' := by
  induction cs generalizing s w t with
  | nil => exact ⟨w, t, h, .nil⟩
  | cons c cs ih =>
    obtain ⟨hc, hcs⟩ := List.forall_mem_cons.1 hsteady
    obtain ⟨hoff, hcyc⟩ := List.forall_mem_cons.1 hcyc
    obtain ⟨ps', w', t', hnext, hserved⟩ := h.step hc
    have hnone : hold wrf none c.snk = none := by
      simp [hold, dataWord, RxMac2Buf.snkValid, hoff]
    rw [hoff, hnone] at hnext
    obtain ⟨w'', t'', hsettling, hrest⟩ := ih (.settled hnext) hcs hcyc
    exact ⟨w'', t'', hsettling, hserved.append hrest⟩

/-! ## A frame -/

/-- **What the cycles of a frame come to**: the streams are to get what is
theirs of it behind the rest; and a frame whose pass does not take more cycles
than itself leaves little work. -/
structure FrameServed (wrf : WrFabric) (regs : EthRegs) (frame : List Word) (w : ℕ)
    (t : Fin (numUdpPrts + 1) → List Dbus) (xs : List (RxBuffers ram × RxBuffersInput)) (w' : ℕ)
    (t' : Fin (numUdpPrts + 1) → List Dbus) : Prop where
  room : (∀ x ∈ xs, ∀ k, x.2.full k = false) → passLength regs frame ≤ xs.length →
    w' ≤ max w (passLength regs frame + 1)
  written : ∀ k, t k ++ delivered regs k frame = xs.filterMap (RxBuffers.written wrf k) ++ t' k
  kept : ∀ x ∈ xs, RxBuffers.overflow wrf x = false

/-- A frame of some words has a burst; what leaves the pipeline in it and in the
cycle behind it are its words. -/
theorem FabricFrame.exists_burst (f : FabricFrame wrf) (hpos : 0 < f.words.length) :
    ∃ i rest g gs, f.cycles = i :: (rest ++ g :: gs) ∧ i.cyc = true ∧
      (∀ j ∈ rest, j.cyc = true) ∧ g.cyc = false ∧ (∀ j ∈ gs, j.cyc = false) ∧
      (pass wrf (hold wrf none i) rest).map Prod.fst ++
        leaving wrf (pend wrf (hold wrf none i) rest) g = endMarked f.words := by
  obtain ⟨g, gs, hgap⟩ := List.exists_cons_of_ne_nil f.gap_ne
  have hburst : f.burst ≠ [] := by
    intro hnil
    have hdata : f.data = [] := by
      rw [burst, List.append_eq_nil_iff, List.append_eq_nil_iff] at hnil
      exact hnil.1.2
    rw [words, hdata] at hpos
    exact absurd hpos (Nat.lt_irrefl 0)
  obtain ⟨i, rest, hir⟩ := List.exists_cons_of_ne_nil hburst
  have hcyc : ∀ j ∈ i :: rest, j.cyc = true := fun j hj => f.cyc_burst j (by
    rw [← hir] at hj
    exact hj)
  obtain ⟨hi, hrest⟩ := List.forall_mem_cons.1 hcyc
  obtain ⟨hg, hgs⟩ := List.forall_mem_cons.1 (hgap ▸ f.cyc_gap)
  have hcycles : f.cycles = i :: (rest ++ g :: gs) := by
    rw [cycles, hir, hgap, List.cons_append]
  refine ⟨i, rest, g, gs, hcycles, hi, hrest, hg, hgs, ?_⟩
  have hquiet : ∀ j ∈ gs, dataWord wrf j = none := fun j hj => by
    simp [dataWord, RxMac2Buf.snkValid, hgs j hj]
  have hghold : hold wrf (pend wrf (hold wrf none i) rest) g = none := by
    simp [hold, dataWord, RxMac2Buf.snkValid, ends, hg]
  have hpass := f.pass_cycles.1
  rw [hcycles, pass, leave_none, Option.toList_none, List.nil_append, pass_append, pass, hghold,
    pass_none_of_quiet hquiet, List.append_nil, List.map_append] at hpass
  rw [← hpass, leaving]
  cases leave wrf (pend wrf (hold wrf none i) rest) g <;> rfl

/-- **The cycles of one frame.** -/
theorem Settling.run_frame (f : FabricFrame wrf) (hmem : f.words ∈ fs)
    (h : Settling wrf regs fs w t s) (hcs : cs.map RxBuffersInput.snk = f.cycles)
    (hsteady : ∀ c ∈ cs, Steady regs fs c)
    (hsafe : Safe wrf w (trace (RxBuffers.step wrf) s cs)) :
    ∃ w' t', Settling wrf regs fs w' t' (run (RxBuffers.step wrf) s cs) ∧
      FrameServed wrf regs f.words w t (trace (RxBuffers.step wrf) s cs) w' t' := by
  have hcs_ne : cs ≠ [] := by
    rintro rfl
    have hgap := f.gap_ne
    rw [List.map_nil, FabricFrame.cycles, eq_comm, List.append_eq_nil_iff] at hcs
    exact hgap hcs.2
  obtain ⟨c₀, hc₀⟩ := List.exists_mem_of_ne_nil cs hcs_ne
  have hlegible := (hsteady c₀ hc₀).legible f.words hmem
  have hshort := hlegible.short
  have hlong := hlegible.long
  obtain ⟨i, rest, g, gs, hcycles, hi, hrest, hg, hgs, hwords⟩ := f.exists_burst (by omega)
  -- the inputs are cut as the frame is
  rw [hcycles] at hcs
  obtain ⟨c, cs', rfl, rfl, hcs'⟩ := List.map_eq_cons_iff.1 hcs
  obtain ⟨cr, cgs', rfl, rfl, hgap⟩ := List.map_eq_append_iff.1 hcs'
  obtain ⟨cg, cgs, rfl, rfl, rfl⟩ := List.map_eq_cons_iff.1 hgap
  obtain ⟨hc, hsteady⟩ := List.forall_mem_cons.1 hsteady
  obtain ⟨hcr, hsteady⟩ := List.forall_mem_append.1 hsteady
  obtain ⟨hcg, hcgs⟩ := List.forall_mem_cons.1 hsteady
  rw [List.forall_mem_map] at hrest hgs
  have hlength := congrArg List.length hwords
  rw [List.length_append, List.length_map, length_endMarked] at hlength
  -- the first cycle, the burst and the end of it
  obtain ⟨ps₁, w₁, t₁, hfirst, hserved₁⟩ := h.step hc
  rw [hi] at hfirst
  have hsafe₁ := hsafe.mono hserved₁.le (List.subset_cons_self _ _)
  rw [trace_append] at hsafe₁
  obtain ⟨ps₂, w₂, t₂, hburst, hserved₂⟩ := hfirst.run_burst hcr hrest (by
    rw [List.length_nil]
    omega) (hsafe₁.mono (Nat.le_refl _) (List.subset_append_left _ _))
  rw [List.nil_append] at hburst
  have hsafe₂ := hsafe₁.mono hserved₂.le (List.subset_append_right _ _)
  have hkept := hburst.kept hcg hsafe₂
  obtain ⟨ps₃, w₃, t₃, hlast, hstep⟩ := hburst.step hcg hkept (by
    rw [List.length_map]
    omega)
  have hserved := hserved₁.append (hserved₂.append (hstep.served hkept))
  have hghold : hold wrf (pend wrf (hold wrf none c.snk) (cr.map RxBuffersInput.snk)) cg.snk =
      none := by
    simp [hold, dataWord, RxMac2Buf.snkValid, ends, hg]
  rw [hwords, hghold, hg] at hlast
  -- the rest of the gap
  obtain ⟨w', t', hsettling, hgapserved⟩ := (Settling.ended hmem hlast).run_gap hcgs hgs
  have htrace : trace (RxBuffers.step wrf) s (c :: (cr ++ cg :: cgs)) =
      ([(s, c)] ++ (trace (RxBuffers.step wrf) (s.step wrf c) cr ++
        [(run (RxBuffers.step wrf) (s.step wrf c) cr, cg)])) ++
      trace (RxBuffers.step wrf) ((run (RxBuffers.step wrf) (s.step wrf c) cr).step wrf cg)
        cgs := by
    rw [trace, trace_append, trace]
    simp
  refine ⟨w', t', ?_, ?_⟩
  · rw [run_cons, run_append, run_cons]
    exact hsettling
  · rw [htrace]
    constructor
    · intro hroom hpass
      obtain ⟨hroom₁, hroom₂⟩ := List.forall_mem_append.1 hroom
      have h₁ := hserved.room hroom₁
      have h₂ := hgapserved.room hroom₂
      rw [List.length_append] at hpass
      omega
    · intro k
      rw [List.filterMap_append, List.append_assoc, ← hgapserved.written k, ← List.append_assoc,
        ← hserved.written k]
    · exact List.forall_mem_append.2 ⟨hserved.kept, hgapserved.kept⟩

/-! ## Frames in a row -/

/-- The words of frames. -/
def frameWords (frames : List (FabricFrame wrf)) : List (List Word) :=
  frames.map FabricFrame.words

/-- **A fabric that leaves time**: the streams have room, and each frame takes
as many cycles as its pass. -/
structure Paced (regs : EthRegs) (frames : List (FabricFrame wrf)) (cs : List RxBuffersInput) :
    Prop where
  room : ∀ c ∈ cs, ∀ k, c.full k = false
  pace : ∀ f ∈ frames, passLength regs f.words ≤ f.cycles.length

/-- The most work that is left between two frames then. -/
def backlog : ℕ := maxReservPktBuf + payload + 5

/-- **Frames in a row**, from between two frames. -/
theorem Settling.run_frames {frames : List (FabricFrame wrf)} (hmem : frameWords frames ⊆ fs)
    (h : Settling wrf regs fs w t s) (hcs : cs.map RxBuffersInput.snk = fabricCycles frames)
    (hsteady : ∀ c ∈ cs, Steady regs fs c)
    (hsafe : (∀ x ∈ trace (RxBuffers.step wrf) s cs, RxBuffers.overflow wrf x = false) ∨
      w ≤ backlog ∧ Paced regs frames cs) :
    ∃ w' t', Settling wrf regs fs w' t' (run (RxBuffers.step wrf) s cs) ∧
      (∀ k, t k ++ deliveries regs (frameWords frames) k =
        (trace (RxBuffers.step wrf) s cs).filterMap (RxBuffers.written wrf k) ++ t' k) ∧
      (w ≤ backlog → Paced regs frames cs → w' ≤ backlog) ∧
      ∀ x ∈ trace (RxBuffers.step wrf) s cs, RxBuffers.overflow wrf x = false := by
  have hbacklog : backlog + 2 * maxReservPktBuf < 2 ^ rxPktBufAdrsize := by decide
  induction frames generalizing s w t cs with
  | nil =>
    obtain rfl : cs = [] := List.map_eq_nil_iff.1 hcs
    exact ⟨w, t, h, fun k => List.append_nil (t k), fun hw _ => hw,
      fun x hx => absurd hx List.not_mem_nil⟩
  | cons f frames ih =>
    obtain ⟨hf, hframes⟩ := List.cons_subset.1 hmem
    have hcycles : fabricCycles (f :: frames) = f.cycles ++ fabricCycles frames := rfl
    rw [hcycles] at hcs
    obtain ⟨c₁, c₂, rfl, h₁, h₂⟩ := List.map_eq_append_iff.1 hcs
    obtain ⟨hs₁, hs₂⟩ := List.forall_mem_append.1 hsteady
    rw [trace_append] at hsafe
    obtain ⟨w', t', hnext, hserved⟩ := h.run_frame f hf h₁ hs₁ (by
      rcases hsafe with hkept | ⟨hw, -⟩
      · exact .inl (List.forall_mem_append.1 hkept).1
      · exact .inr (by omega))
    -- a frame that takes its time does not leave more work than the backlog
    have hlow : w ≤ backlog → Paced regs (f :: frames) (c₁ ++ c₂) → w' ≤ backlog := by
      intro hw hpaced
      have hshort : f.words.length ≤ maxReservPktBuf := f.short
      have hpass : passLength regs f.words ≤ _ := passLength_le
      have hpace := hpaced.pace f (by simp)
      have hroom := hserved.room (fun x hx k => by
        exact hpaced.room x.2 (List.mem_append_left _ (mem_of_mem_trace hx)) k) (by
          rw [← h₁, List.length_map] at hpace
          rwa [length_trace])
      have hdef : backlog = maxReservPktBuf + payload + 5 := rfl
      omega
    have hrest : Paced regs (f :: frames) (c₁ ++ c₂) → Paced regs frames c₂ := fun hpaced =>
      ⟨(List.forall_mem_append.1 hpaced.room).2, (List.forall_mem_cons.1 hpaced.pace).2⟩
    obtain ⟨w'', t'', hsettling, hwritten, hlow', hkept⟩ := ih hframes hnext h₂ hs₂ (by
      rcases hsafe with hkept | ⟨hw, hpaced⟩
      · exact .inl (List.forall_mem_append.1 hkept).2
      · exact .inr ⟨hlow hw hpaced, hrest hpaced⟩)
    refine ⟨w'', t'', ?_, fun k => ?_, fun hw hpaced => hlow' (hlow hw hpaced) (hrest hpaced), ?_⟩
    · rw [run_append]
      exact hsettling
    · have hcons : deliveries regs (frameWords (f :: frames)) k =
          delivered regs k f.words ++ deliveries regs (frameWords frames) k := List.flatMap_cons
      rw [hcons, ← List.append_assoc, hserved.written k, List.append_assoc, hwritten k,
        trace_append, List.filterMap_append, List.append_assoc]
    · rw [trace_append]
      exact List.forall_mem_append.2 ⟨hserved.kept, hkept⟩

/-! ## Without end -/

section Forever

variable {lead : ℕ} {frames : List (FabricFrame wrf)} {cs : ℕ → RxBuffersInput}

/-- The number of cycles of frames, with those before them. -/
def fabricTime (lead : ℕ) (frames : List (FabricFrame wrf)) : ℕ :=
  lead + (fabricCycles frames).length

/-- **The fabric carries frames**, after some cycles, and then nothing. -/
structure Carries (lead : ℕ) (frames : List (FabricFrame wrf)) (cs : ℕ → RxBuffersInput) :
    Prop where
  before : ∀ m < lead, (cs m).snk.cyc = false
  fabric : (upTo (fun i => cs (lead + i)) (fabricCycles frames).length).map RxBuffersInput.snk =
    fabricCycles frames
  quiet : ∀ m, fabricTime lead frames ≤ m → (cs m).snk.cyc = false

/-- What a stream has been written after some cycles from a reset. -/
def received (wrf : WrFabric) (s : RxBuffers ram) (cs : ℕ → RxBuffersInput) (m : ℕ)
    (k : Fin (numUdpPrts + 1)) : List Dbus :=
  (trace (RxBuffers.step wrf) s.reset (upTo cs m)).filterMap (RxBuffers.written wrf k)

theorem received_mono {m m' : ℕ} (h : m ≤ m') (k : Fin (numUdpPrts + 1)) :
    received wrf s cs m k <+: received wrf s cs m' k := by
  obtain ⟨d, rfl⟩ := Nat.exists_eq_add_of_le h
  rw [received, received, upTo_add, trace_append, List.filterMap_append]
  exact List.prefix_append _ _

theorem steady_upTo (hsteady : ∀ m, Steady regs fs (cs m)) (m : ℕ) :
    ∀ c ∈ upTo cs m, Steady regs fs c := by
  intro c hc
  obtain ⟨i, -, rfl⟩ := List.mem_map.1 hc
  exact hsteady i

/-- While nothing comes there is nothing. -/
theorem settling_lead (hquiet : ∀ m < lead, (cs m).snk.cyc = false)
    (hsteady : ∀ m, Steady regs fs (cs m)) :
    Settling wrf regs fs 0 (fun _ => []) (run (RxBuffers.step wrf) s.reset (upTo cs lead)) ∧
      (∀ k, received wrf s cs lead k = []) ∧
      ∀ x ∈ trace (RxBuffers.step wrf) s.reset (upTo cs lead),
        RxBuffers.overflow wrf x = false := by
  obtain ⟨w, t, hsettling, hserved⟩ := (Settling.settled (buffered_reset s)).run_gap
    (steady_upTo hsteady lead) (by
      intro c hc
      obtain ⟨i, hi, rfl⟩ := List.mem_map.1 hc
      exact hquiet i (List.mem_range.1 hi))
  have hnone : ∀ k, received wrf s cs lead k = [] ∧ t k = [] := fun k =>
    List.append_eq_nil_iff.1 (hserved.written k).symm
  obtain rfl : w = 0 := Nat.le_zero.1 hserved.le
  obtain rfl : t = fun _ => [] := funext fun k => (hnone k).2
  exact ⟨hsettling, fun k => (hnone k).1, hserved.kept⟩

/-- **Behind the frames**: what the streams have, and what they are to get. -/
theorem settling_after (hcarries : Carries lead frames cs)
    (hsteady : ∀ m, Steady regs (frameWords frames) (cs m))
    (hsafe : (∀ x ∈ trace (RxBuffers.step wrf) s.reset (upTo cs (fabricTime lead frames)),
      RxBuffers.overflow wrf x = false) ∨ Paced regs frames (upTo cs (fabricTime lead frames)))
    (d : ℕ) :
    ∃ w t, Settling wrf regs (frameWords frames) w t
        (run (RxBuffers.step wrf) s.reset (upTo cs (fabricTime lead frames + d))) ∧
      (∀ k, deliveries regs (frameWords frames) k =
        received wrf s cs (fabricTime lead frames + d) k ++ t k) ∧
      (Paced regs frames (upTo cs (fabricTime lead frames + d)) → w ≤ backlog - d) ∧
      ∀ x ∈ trace (RxBuffers.step wrf) s.reset (upTo cs (fabricTime lead frames + d)),
        RxBuffers.overflow wrf x = false := by
  obtain ⟨hlead, hnone, hkept₀⟩ := settling_lead (s := s) hcarries.before hsteady
  have hsplit : upTo cs (fabricTime lead frames) =
      upTo cs lead ++ upTo (fun i => cs (lead + i)) (fabricCycles frames).length := upTo_add _ _
  have hfabric : ∀ i, Steady regs (frameWords frames) (cs (lead + i)) := fun i => hsteady _
  obtain ⟨w, t, hsettling, hwritten, hlow, hkept⟩ := hlead.run_frames (List.Subset.refl _)
    hcarries.fabric (steady_upTo hfabric _) (by
      rw [hsplit, trace_append] at hsafe
      refine hsafe.imp (fun hkept x hx => hkept x (List.mem_append_right _ hx)) fun hpaced => ?_
      exact ⟨Nat.zero_le _, fun c hc => hpaced.room c (List.mem_append_right _ hc), hpaced.pace⟩)
  -- behind the frames the fabric is quiet
  have hlater : ∀ i, Steady regs (frameWords frames) (cs (fabricTime lead frames + i)) :=
    fun i => hsteady _
  obtain ⟨w', t', hafter, hserved⟩ := hsettling.run_gap (steady_upTo hlater d) (by
      intro c hc
      obtain ⟨i, -, rfl⟩ := List.mem_map.1 hc
      exact hcarries.quiet _ (Nat.le_add_right _ _))
  refine ⟨w', t', ?_, fun k => ?_, fun hpaced => ?_, ?_⟩
  · rw [upTo_add, hsplit, run_append, run_append]
    exact hafter
  · have hfirst := hwritten k
    have hbefore := hnone k
    rw [List.nil_append] at hfirst
    rw [received] at hbefore
    rw [hfirst, hserved.written k, received, upTo_add, hsplit, trace_append, trace_append,
      List.filterMap_append, List.filterMap_append, run_append, hbefore, List.nil_append,
      List.append_assoc]
  · rw [upTo_add, hsplit] at hpaced
    obtain ⟨hroom, hroom'⟩ := List.forall_mem_append.1 hpaced.room
    have hbefore := hlow (Nat.zero_le _) ⟨(List.forall_mem_append.1 hroom).2, hpaced.pace⟩
    have hcount := hserved.room fun x hx k => hroom' x.2 (mem_of_mem_trace hx) k
    have hcycles : (upTo (fun i => cs (fabricTime lead frames + i)) d).length = d := by
      rw [upTo, List.length_map, List.length_range]
    rw [length_trace, hcycles] at hcount
    omega
  · rw [upTo_add, hsplit, trace_append, trace_append, run_append]
    exact List.forall_mem_append.2 ⟨List.forall_mem_append.2 ⟨hkept₀, hkept⟩, hserved.kept⟩

end Forever

/-! ## A fabric to play frames on -/

/-- A data word on the fabric. -/
def dataCycle (wrf : WrFabric) (d : Word) : SnkInput where
  cyc := true
  stb := true
  adr := wrf.wrfData
  dat := d

/-- **A frame of some words** on the fabric: a status word, the words without
gaps, and some cycles behind them. -/
def FabricFrame.ofWords (wrf : WrFabric) (ws : List Word) (gap : ℕ)
    (short : ws.length ≤ maxReservPktBuf) : FabricFrame wrf where
  status := [{ cyc := true, stb := true, adr := wrf.wrfStatus }]
  data := ws.map (dataCycle wrf)
  oob := []
  gap := List.replicate (gap + 1) {}
  cyc_burst i hi := by
    simp only [List.append_nil, List.singleton_append, List.mem_cons, List.mem_map] at hi
    rcases hi with rfl | ⟨w, -, rfl⟩ <;> rfl
  status_adr i hi _ := by
    obtain rfl := List.mem_singleton.1 hi
    rfl
  data_adr i hi := by
    obtain ⟨w, -, rfl⟩ := List.mem_map.1 hi
    rfl
  oob_adr i hi := absurd hi List.not_mem_nil
  cyc_gap i hi := by rw [List.eq_of_mem_replicate hi]
  gap_ne := List.cons_ne_nil _ _
  short := (List.length_filterMap_le _ _).trans (by rwa [List.length_map])

@[simp] theorem FabricFrame.words_ofWords (ws : List Word) (gap : ℕ)
    (short : ws.length ≤ maxReservPktBuf) :
    (FabricFrame.ofWords wrf ws gap short).words = ws := by
  have hsome : dataWord wrf ∘ dataCycle wrf = some := by
    funext d
    simp [dataWord, dataCycle, RxMac2Buf.snkValid, RxMac2Buf.stallInt, RxMac2Buf.rdReq]
  change (ws.map (dataCycle wrf)).filterMap (dataWord wrf) = ws
  rw [List.filterMap_map, hsome, List.filterMap_some]

/-- Frames on the fabric, with the registers, and streams that are full now and
then. -/
def playing (regs : EthRegs) (full : ℕ → Streams) (frames : List (FabricFrame wrf)) (m : ℕ) :
    RxBuffersInput where
  snk := (fabricCycles frames).getD m {}
  full := full m
  ethRegs := regs

theorem carries_playing (full : ℕ → Streams) (frames : List (FabricFrame wrf)) :
    Carries 0 frames (playing regs full frames) where
  before m hm := absurd hm (Nat.not_lt_zero m)
  fabric := by
    simp only [Nat.zero_add]
    rw [map_upTo]
    exact upTo_getD _ _
  quiet m hm := by
    rw [fabricTime, Nat.zero_add] at hm
    change ((fabricCycles frames).getD m {}).cyc = false
    rw [List.getD_eq_default _ _ hm]

/-- One frame finds an empty buffer. -/
theorem kept_singleton {lead : ℕ} {f : FabricFrame wrf} {cs : ℕ → RxBuffersInput}
    (hcarries : Carries lead [f] cs) (hsteady : ∀ m, Steady regs (frameWords [f]) (cs m)) :
    ∀ x ∈ trace (RxBuffers.step wrf) s.reset (upTo cs (fabricTime lead [f])),
      RxBuffers.overflow wrf x = false := by
  obtain ⟨hlead, -, hkept⟩ := settling_lead (s := s) hcarries.before hsteady
  have hfabric := hcarries.fabric
  have hcycles : fabricCycles [f] = f.cycles := List.flatMap_singleton ..
  have hlater : ∀ i, Steady regs (frameWords [f]) (cs (lead + i)) := fun i => hsteady _
  rw [hcycles] at hfabric
  obtain ⟨w, t, -, hserved⟩ := hlead.run_frame f (List.mem_singleton_self _) hfabric
    (steady_upTo hlater _) (.inr (by decide))
  rw [fabricTime, hcycles, upTo_add, trace_append]
  exact List.forall_mem_append.2 ⟨hkept, hserved.kept⟩

/-- Two words of payload for stream 1. -/
def samplePayloadFrame : FabricFrame sampleFabric :=
  .ofWords sampleFabric (sampleUdp []) 24 (by decide)

/-- A frame for the CPU. -/
def sampleCpuFrame : FabricFrame sampleFabric :=
  .ofWords sampleFabric (List.replicate 22 0xCC) 24 (by decide)

/-- The receive buffers, with an empty buffer. -/
def sampleBuffers : RxBuffers (array rxPktBufAdrsize 17) where
  mac := RxMac2Buf.reset
  sm := (sampleReadSide []).sm
  pause := PauseReqLogic.reset
  buffer := (fun _ => 0, 0)

theorem steady_sample {frames : List (FabricFrame sampleFabric)} (full : ℕ → Streams) (m : ℕ) :
    Steady sampleReadCycle.ethRegs [sampleUdp [], List.replicate 22 0xCC]
      (playing sampleReadCycle.ethRegs full frames m) where
  regs_eq := rfl
  legible := by
    refine List.forall_mem_cons.2 ⟨⟨by decide, by decide, by decide +kernel⟩, ?_⟩
    exact List.forall_mem_singleton.2 ⟨by decide, by decide, by decide +kernel⟩
  onePort _ _ := onePort_of_injective (by decide)
  padding := by
    refine List.forall_mem_cons.2 ⟨fun j _ _ => by decide, ?_⟩
    refine List.forall_mem_singleton.2 fun j hj _ => ?_
    have hnone : modPort sampleReadCycle.ethRegs (List.replicate 22 0xCC) = none := by
      decide +kernel
    rw [hnone] at hj
    cases hj

/-- Stream 1 is full in every second cycle. -/
def sampleBusy (m : ℕ) : Streams := fun k => k.val == 1 && m % 2 == 0

theorem steady_busy (m : ℕ) : Steady sampleReadCycle.ethRegs (frameWords [samplePayloadFrame])
    (playing sampleReadCycle.ethRegs sampleBusy [samplePayloadFrame] m) := by
  have hwords : frameWords [samplePayloadFrame] = [sampleUdp []] := by
    simp [frameWords, samplePayloadFrame]
  rw [hwords]
  exact (steady_sample sampleBusy m).mono (by simp)

section Received

variable {lead : ℕ} {frames : List (FabricFrame wrf)} {cs : ℕ → RxBuffersInput}

/-! ## In order, and nothing else -/

/-- Where no word of the frames meets the full flag, what a stream has been
written at any time is the beginning of what is its own of each frame, in the
order of the frames. -/
theorem received_isPrefix (hcarries : Carries lead frames cs)
    (hsteady : ∀ m, Steady regs (frameWords frames) (cs m))
    (hkept : ∀ x ∈ trace (RxBuffers.step wrf) s.reset (upTo cs (fabricTime lead frames)),
      RxBuffers.overflow wrf x = false) (m : ℕ) (k : Fin (numUdpPrts + 1)) :
    received wrf s cs m k <+: deliveries regs (frameWords frames) k := by
  obtain ⟨w, t, -, hwritten, -⟩ := settling_after hcarries hsteady (.inl hkept) m
  refine (received_mono (Nat.le_add_left m (fabricTime lead frames)) k).trans ?_
  rw [hwritten k]
  exact List.prefix_append _ _

/-! ## All of it -/

/-- With no work left there is nothing that a stream is to get. -/
theorem Draining.eq_nil {rd : BitVec rxPktBufAdrsize} {r : RxReadSide ram}
    (h : Draining regs rd ps w t r) (hw : w = 0) : ps = [] ∧ ∀ k, t k = [] := by
  cases h with
  | waiting _ =>
    cases ps with
    | nil => exact ⟨rfl, fun _ => rfl⟩
    | cons frame ps =>
      have hlength : frame.length + 4 ≤ passLength regs frame := length_le_passLength
      have hcons : work regs (frame :: ps) = passLength regs frame + work regs ps := by
        simp [work]
      omega
  | passing hleft _ => omega

theorem Settling.eq_nil (h : Settling wrf regs fs w t s) (hw : w = 0) :
    ∀ k, t k = [] := by
  cases h with
  | settled h => exact (h.reader.eq_nil hw).2
  | ended _ _ => omega

/-- Where nothing has come the registers are not looked at. -/
theorem Settling.step_of_eq (h : Settling wrf regs fs w t s) (hw : w = 0) {c' : RxBuffersInput}
    (hc : { c' with ethRegs := c.ethRegs } = c) : s.step wrf c' = s.step wrf c := by
  cases h with
  | ended _ _ => omega
  | @settled ps w t _ h =>
    obtain ⟨rfl, -⟩ := h.reader.eq_nil hw
    have hempty : s.empty = true := h.ring.empty_eq (by simp)
    have hidle : s.sm.state = .idle := by
      have hreader := h.reader
      generalize hps : ([] : List (List Word)) = ps at hreader
      cases hreader with
      | waiting hwaiting => exact hwaiting.state
      | passing _ _ => cases hps
    rw [← hc]
    simp [RxBuffers.step, RxBuf2Data.step, hidle, hempty, RxBuffers.snkInput, RxBuffers.pauseInput]

/-- At a pace that leaves time no word meets the full flag, -/
theorem overflow_of_paced (hcarries : Carries lead frames cs)
    (hsteady : ∀ m, Steady regs (frameWords frames) (cs m))
    (hpaced : ∀ m, Paced regs frames (upTo cs m)) (m : ℕ) :
    ∀ x ∈ trace (RxBuffers.step wrf) s.reset (upTo cs m), RxBuffers.overflow wrf x = false := by
  obtain ⟨-, -, -, -, -, hkept⟩ := settling_after hcarries hsteady (.inr (hpaced _)) m
  intro x hx
  refine hkept x ?_
  rw [Nat.add_comm, upTo_add, trace_append]
  exact List.mem_append_left _ hx

/-- and a backlog behind the last frame all is written. -/
theorem received_eq_of_paced (hcarries : Carries lead frames cs)
    (hsteady : ∀ m, Steady regs (frameWords frames) (cs m))
    (hpaced : ∀ m, Paced regs frames (upTo cs m)) {m : ℕ}
    (hm : fabricTime lead frames + backlog ≤ m) (k : Fin (numUdpPrts + 1)) :
    received wrf s cs m k = deliveries regs (frameWords frames) k := by
  obtain ⟨d, rfl⟩ := Nat.exists_eq_add_of_le (Nat.le_of_add_right_le hm)
  obtain ⟨w, t, hsettling, hwritten, hlow, -⟩ :=
    settling_after hcarries hsteady (.inr (hpaced _)) d
  have hdone : w = 0 := by
    have hle := hlow (hpaced _)
    omega
  rw [hwritten k, hsettling.eq_nil hdone k, List.append_nil]

theorem paced_upTo (hroom : ∀ m k, (cs m).full k = false)
    (hpace : ∀ f ∈ frames, passLength regs f.words ≤ f.cycles.length) (m : ℕ) :
    Paced regs frames (upTo cs m) := by
  refine ⟨fun c hc => ?_, hpace⟩
  obtain ⟨i, -, rfl⟩ := List.mem_map.1 hc
  exact hroom i

/-- **The reader keeps up.** With room in the streams, and frames that take as
many cycles on the fabric as their passes, no word ever meets the full flag; and
some cycles after the last frame each stream has been written what is its own of
each frame, in their order, and nothing else. -/
theorem line_rate (hcarries : Carries lead frames cs)
    (hsteady : ∀ m, Steady regs (frameWords frames) (cs m))
    (hroom : ∀ m k, (cs m).full k = false)
    (hpace : ∀ f ∈ frames, passLength regs f.words ≤ f.cycles.length) :
    (∀ m, ∀ x ∈ trace (RxBuffers.step wrf) s.reset (upTo cs m),
      RxBuffers.overflow wrf x = false) ∧
    ∀ m, fabricTime lead frames + backlog ≤ m → ∀ k,
      received wrf s cs m k = deliveries regs (frameWords frames) k := by
  have hpaced := paced_upTo hroom hpace
  exact ⟨overflow_of_paced hcarries hsteady hpaced, fun m hm k =>
    received_eq_of_paced hcarries hsteady hpaced hm k⟩

/-- A frame for a stream and one for the CPU. -/
theorem line_rate_sample :
    received sampleFabric sampleBuffers (playing sampleReadCycle.ethRegs (fun _ _ => false)
        [samplePayloadFrame, sampleCpuFrame])
        (fabricTime 0 [samplePayloadFrame, sampleCpuFrame] + backlog) 1 =
      [{ d := 0xA1, eod := false }, { d := 0xA2, eod := true }] := by
  have hwords : frameWords [samplePayloadFrame, sampleCpuFrame] =
      [sampleUdp [], List.replicate 22 0xCC] := by
    simp [frameWords, samplePayloadFrame, sampleCpuFrame]
  have hpace : ∀ f ∈ [samplePayloadFrame, sampleCpuFrame],
      passLength sampleReadCycle.ethRegs f.words ≤ f.cycles.length := by decide +kernel
  rw [(line_rate (carries_playing (fun _ _ => false) _)
    (fun m => hwords ▸ steady_sample _ m) (fun _ _ => rfl) hpace).2 _ (Nat.le_refl _), hwords]
  decide +kernel

/-- **A time behind the frames**: the queue then, and the work. -/
def Idling (wrf : WrFabric) (regs : EthRegs) (frames : List (FabricFrame wrf))
    (cs : ℕ → RxBuffersInput) (s : RxBuffers ram) (m : ℕ) (ps : List (List Word)) (w : ℕ) : Prop :=
  ∃ t, Buffered wrf regs (frameWords frames) false none false ps [] w t
      (run (RxBuffers.step wrf) s.reset (upTo cs m)) ∧
    ∀ k, deliveries regs (frameWords frames) k = received wrf s cs m k ++ t k

theorem Idling.succ (hcarries : Carries lead frames cs)
    (hsteady : ∀ m, Steady regs (frameWords frames) (cs m)) {m : ℕ}
    (hm : fabricTime lead frames ≤ m) (h : Idling wrf regs frames cs s m ps w) :
    ∃ ps' w', Idling wrf regs frames cs s (m + 1) ps' w' ∧ (ps' = ps ∧ w' = w ∨ w' < w) ∧
      ((∀ frame ∈ ps.head?, (cs m).full (streamOf regs frame) = false) → w' = w - 1) := by
  obtain ⟨t, hbuffered, hwritten⟩ := h
  have hoff := hcarries.quiet m hm
  have hnone : leaving wrf none (cs m).snk = [] := by rw [leaving, leave_none]; rfl
  have hhold : hold wrf none (cs m).snk = none := by
    simp [hold, dataWord, RxMac2Buf.snkValid, hoff]
  obtain ⟨ps', w', t', hnext, hstep⟩ := hbuffered.step (hsteady m)
    (overflow_of_pipe_none hbuffered.writer.pipe) (by rw [hnone]; exact Nat.zero_le _)
  rw [hnone, hoff, hhold] at hnext
  refine ⟨ps', w', ⟨t', ?_, fun k => ?_⟩, ?_, hstep.room⟩
  · rw [run_upTo_succ]
    exact hnext
  · rw [hwritten k, hstep.written k, received, received, filterMap_trace_upTo_succ,
      List.append_assoc]
    rfl
  · rcases hstep.queue with ⟨-, hps⟩ | ⟨hlt, -⟩
    · rcases Nat.lt_or_eq_of_le hstep.le with hlt | heq
      · exact .inr hlt
      · exact .inl ⟨hps, heq⟩
    · exact .inr hlt

/-- **With a room for each stream again and again** the work gets less. -/
theorem Idling.less (hcarries : Carries lead frames cs)
    (hsteady : ∀ m, Steady regs (frameWords frames) (cs m))
    (hfair : ∀ k N, ∃ m, N ≤ m ∧ (cs m).full k = false) {m : ℕ} (hm : fabricTime lead frames ≤ m)
    (h : Idling wrf regs frames cs s m ps w) (hw : 0 < w) :
    ∃ m' ps' w', m ≤ m' ∧ Idling wrf regs frames cs s m' ps' w' ∧ w' < w := by
  have hhead : ∃ frame, frame ∈ ps.head? := by
    cases ps with
    | nil =>
      obtain ⟨t, hbuffered, -⟩ := h
      have hreader := hbuffered.reader
      generalize hps : ([] : List (List Word)) = ps at hreader
      cases hreader with
      | waiting _ =>
        subst hps
        exact absurd hw (Nat.lt_irrefl 0)
      | passing _ _ => cases hps
    | cons frame ps => exact ⟨frame, rfl⟩
  obtain ⟨frame, hframe⟩ := hhead
  obtain ⟨n, hn, hroom⟩ := hfair (streamOf regs frame) m
  obtain ⟨d, rfl⟩ := Nat.exists_eq_add_of_le hn
  -- up to that cycle the queue stays, or the work gets less before
  induction d generalizing m with
  | zero =>
    obtain ⟨ps', w', hnext, -, hless⟩ := h.succ hcarries hsteady hm
    have hone := hless fun frame' hf => by
      obtain rfl := Option.mem_unique hframe hf
      exact hroom
    exact ⟨m + 1, ps', w', Nat.le_succ m, hnext, by omega⟩
  | succ d ih =>
    obtain ⟨ps', w', hnext, ⟨rfl, rfl⟩ | hlt, -⟩ := h.succ hcarries hsteady hm
    · obtain ⟨m', ps'', w'', hm', hlater, hless⟩ := ih (by omega) hnext (by omega) (by
        rwa [Nat.add_right_comm, Nat.add_assoc])
      exact ⟨m', ps'', w'', by omega, hlater, hless⟩
    · exact ⟨m + 1, ps', w', Nat.le_succ m, hnext, hlt⟩

/-- So in the end there is none. -/
theorem Idling.done (hcarries : Carries lead frames cs)
    (hsteady : ∀ m, Steady regs (frameWords frames) (cs m))
    (hfair : ∀ k N, ∃ m, N ≤ m ∧ (cs m).full k = false) {m : ℕ} (hm : fabricTime lead frames ≤ m)
    (h : Idling wrf regs frames cs s m ps w) :
    ∃ m' ps', m ≤ m' ∧ Idling wrf regs frames cs s m' ps' 0 := by
  induction w using Nat.strong_induction_on generalizing m ps with
  | _ w ih =>
    rcases Nat.eq_zero_or_pos w with rfl | hw
    · exact ⟨m, ps, Nat.le_refl m, h⟩
    · obtain ⟨m', ps', w', hm', hlater, hlt⟩ := h.less hcarries hsteady hfair hm hw
      obtain ⟨m'', ps'', hm'', hdone⟩ := ih w' hlt (hm.trans hm') hlater
      exact ⟨m'', ps'', hm'.trans hm'', hdone⟩

/-- With a room for each stream again and again there is a time from which on
each stream has been written all that is its own, and nothing else. -/
theorem exists_received (hcarries : Carries lead frames cs)
    (hsteady : ∀ m, Steady regs (frameWords frames) (cs m))
    (hkept : ∀ x ∈ trace (RxBuffers.step wrf) s.reset (upTo cs (fabricTime lead frames)),
      RxBuffers.overflow wrf x = false)
    (hfair : ∀ k N, ∃ m, N ≤ m ∧ (cs m).full k = false) :
    ∃ M, ∀ m, M ≤ m → ∀ k, received wrf s cs m k = deliveries regs (frameWords frames) k := by
  have hafter := settling_after hcarries hsteady (.inl hkept) 0
  simp only [Nat.add_zero] at hafter
  obtain ⟨w, t, hsettling, hwritten, -⟩ := hafter
  -- one cycle later the last frame is in the queue
  obtain ⟨ps, w', t', hnext, hserved⟩ := hsettling.step (hsteady (fabricTime lead frames))
  have hoff := hcarries.quiet (fabricTime lead frames) (Nat.le_refl _)
  have hhold : hold wrf none (cs (fabricTime lead frames)).snk = none := by
    simp [hold, dataWord, RxMac2Buf.snkValid, hoff]
  have hstate : (run (RxBuffers.step wrf) s.reset (upTo cs (fabricTime lead frames))).step wrf
      (cs (fabricTime lead frames)) = _ := run_upTo_succ.symm
  rw [hoff, hhold, hstate] at hnext
  have hidling : Idling wrf regs frames cs s (fabricTime lead frames + 1) ps w' := by
    refine ⟨t', hnext, fun k => ?_⟩
    rw [hwritten k, hserved.written k, received, received, trace_upTo_succ, List.filterMap_append,
      List.append_assoc]
  obtain ⟨M, ps', -, t₀, hbuffered, hall⟩ :=
    hidling.done hcarries hsteady hfair (Nat.le_succ _)
  refine ⟨M, fun m hm k => ?_⟩
  have hdone : received wrf s cs M k = deliveries regs (frameWords frames) k := by
    rw [hall k, (hbuffered.reader.eq_nil rfl).2 k, List.append_nil]
  have hmono : received wrf s cs M k <+: received wrf s cs m k := received_mono hm k
  rw [hdone] at hmono
  exact (received_isPrefix hcarries hsteady hkept m k).eq_of_length_le hmono.length_le

/-- **What the streams get.** Where no word of the frames meets the full flag,
what a stream has been written at any time is the beginning of what is its own
of each frame, in the order of the frames; and if each stream has room again and
again, there is a time from which on it has been written all of that. -/
theorem delivers (hcarries : Carries lead frames cs)
    (hsteady : ∀ m, Steady regs (frameWords frames) (cs m))
    (hkept : ∀ x ∈ trace (RxBuffers.step wrf) s.reset (upTo cs (fabricTime lead frames)),
      RxBuffers.overflow wrf x = false) :
    (∀ m k, received wrf s cs m k <+: deliveries regs (frameWords frames) k) ∧
    ((∀ k N, ∃ m, N ≤ m ∧ (cs m).full k = false) →
      ∃ M, ∀ m, M ≤ m → ∀ k, received wrf s cs m k = deliveries regs (frameWords frames) k) :=
  ⟨received_isPrefix hcarries hsteady hkept, exists_received hcarries hsteady hkept⟩

/-- A frame whose stream is full in every second cycle. -/
theorem delivers_sample :
    ∃ M, ∀ m, M ≤ m → received sampleFabric sampleBuffers
        (playing sampleReadCycle.ethRegs sampleBusy [samplePayloadFrame]) m 1 =
      [{ d := 0xA1, eod := false }, { d := 0xA2, eod := true }] := by
  obtain ⟨-, hall⟩ := delivers (carries_playing sampleBusy _) steady_busy
    (kept_singleton (carries_playing sampleBusy _) steady_busy)
  obtain ⟨M, hM⟩ := hall fun k N => ⟨2 * N + 1, by omega, by simp [playing, sampleBusy]⟩
  refine ⟨M, fun m hm => ?_⟩
  have hwords : frameWords [samplePayloadFrame] = [sampleUdp []] := by
    simp [frameWords, samplePayloadFrame]
  rw [hM m hm 1, hwords]
  decide +kernel

end Received

end Ipmux

end WrCalibration
