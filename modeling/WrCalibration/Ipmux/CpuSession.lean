import WrCalibration.Ipmux.TxData2Buf

/-!
# The sessions of the CPU

While the CPU has access, a word that it marks as the last one moves the end
of the packet to its address, and on the release of the request the packet
pointer moves behind that end. The end is a register that the streams and
all the sessions share: a session that marks no word moves the pointer by
the length of the packet before it.
-/

namespace WrCalibration

namespace Ipmux

open Clocked TxData2Buf

/-- A cycle of the state machine: its inputs, and the pseudo header. -/
abbrev TxCycle := TxInput × BitVec 32

namespace TxData2Buf

/-- One clock edge, from the inputs of a cycle. -/
def stepCycle (s : TxData2Buf) (c : TxCycle) : TxData2Buf := s.step c.1 c.2

end TxData2Buf

variable {s : TxData2Buf} {cs : List TxCycle} {c last : TxCycle}

/-- A word that the CPU writes and marks as the last one. -/
def markedAddr (c : TxCycle) : Option (BitVec txPktBufAdrsize) :=
  if c.1.cpuTx.eop && c.1.cpuTx.wrEn then some c.1.cpuTx.addr else none

/-- The address of the last word marked in some cycles. -/
def lastMarked (cs : List TxCycle) : Option (BitVec txPktBufAdrsize) :=
  (cs.filterMap markedAddr).getLast?

/-- **A session of the CPU**, from the cycle that grants access to the one
before the request is released. -/
structure IsSession (s : TxData2Buf) (cs : List TxCycle) (release : TxCycle) : Prop where
  idle : s.state = .idle
  granted : ∃ grant body, cs = grant :: body ∧ grant.1.full = false
  request : ∀ c ∈ cs, c.1.cpuTx.request = true
  released : release.1.cpuTx.request = false

/-! ## In the session -/

/-- The machine stays with the CPU while the request is held. -/
theorem step_of_request (hstate : s.state = .accessByCpu) {i : TxInput} (pseudoHeader : BitVec 32)
    (hrequest : i.cpuTx.request = true) : s.step i pseudoHeader = s.toAccessByCpu i := by
  simp only [TxData2Buf.step, hstate, hrequest, Bool.not_true, Bool.false_eq_true, if_false]

/-- The release of the request moves the packet pointer. -/
theorem pktPtr_of_release (hstate : s.state = .accessByCpu) {i : TxInput}
    (pseudoHeader : BitVec 32) (hrelease : i.cpuTx.request = false) :
    (s.step i pseudoHeader).pktPtr = s.pktPtr + s.pktEnd + 1 := by
  simp only [TxData2Buf.step, hstate, hrelease, Bool.not_false, if_true, toIdle]

theorem pktEnd_toAccessByCpu (s : TxData2Buf) (c : TxCycle) :
    (s.toAccessByCpu c.1).pktEnd = (markedAddr c).getD s.pktEnd := by
  unfold toAccessByCpu markedAddr
  split
  · rfl
  · rfl

/-- The last word marked, of one more cycle. -/
theorem getD_lastMarked_cons (c : TxCycle) (cs : List TxCycle) (d : BitVec txPktBufAdrsize) :
    (lastMarked (c :: cs)).getD d = (lastMarked cs).getD ((markedAddr c).getD d) := by
  unfold lastMarked
  rw [List.filterMap_cons]
  cases markedAddr c with
  | none => rfl
  | some a =>
    simp only [List.getLast?_cons, Option.getD_some]

/-- **While the request is held** the machine stays with the CPU, the
packet pointer stands, and the end of the packet is where the last word was
marked. -/
theorem run_accessByCpu (hstate : s.state = .accessByCpu)
    (hrequest : ∀ c ∈ cs, c.1.cpuTx.request = true) :
    (run stepCycle s cs).state = .accessByCpu ∧ (run stepCycle s cs).pktPtr = s.pktPtr ∧
      (run stepCycle s cs).pktEnd = (lastMarked cs).getD s.pktEnd := by
  induction cs generalizing s with
  | nil => exact ⟨hstate, rfl, rfl⟩
  | cons c cs ih =>
    obtain ⟨hnow, hrest⟩ := List.forall_mem_cons.1 hrequest
    rw [run_cons, stepCycle, step_of_request hstate c.2 hnow]
    obtain ⟨hst, hptr, hend⟩ := ih (s := s.toAccessByCpu c.1) rfl hrest
    refine ⟨hst, hptr, ?_⟩
    rw [hend, pktEnd_toAccessByCpu, getD_lastMarked_cons]

/-- **What a session does**: the pointer stands until the release, and then
moves behind the last word marked, or by the packet before if there is
none. -/
theorem IsSession.run (h : IsSession s cs last) :
    (run stepCycle s cs).pktPtr = s.pktPtr ∧
      (run stepCycle s (cs ++ [last])).pktPtr =
        s.pktPtr + (lastMarked cs).getD s.pktEnd + 1 := by
  obtain ⟨grant, body, rfl, hfull⟩ := h.granted
  obtain ⟨hgrant, hbody⟩ := List.forall_mem_cons.1 h.request
  have hstep : s.stepCycle grant = s.toAccessByCpu grant.1 := by
    simp only [stepCycle, TxData2Buf.step, h.idle, hgrant, hfull, Bool.not_false, Bool.and_true,
      if_true]
  obtain ⟨hst, hptr, hend⟩ := run_accessByCpu (s := s.toAccessByCpu grant.1) rfl hbody
  rw [run_append, run_cons, hstep]
  refine ⟨hptr, ?_⟩
  rw [run_cons, run_nil, stepCycle, pktPtr_of_release hst last.2 h.released, hptr, hend,
    getD_lastMarked_cons, pktEnd_toAccessByCpu]
  rfl

/-! ## What a session should do -/

/-- **The session commits what it marked**: the pointer moves behind the
last word marked in it, and not at all if there is none. -/
def CommitsMarked (s : TxData2Buf) (cs : List TxCycle) (release : TxCycle) : Prop :=
  (run stepCycle s cs).pktPtr = s.pktPtr ∧
    (run stepCycle s (cs ++ [release])).pktPtr =
      s.pktPtr + (match lastMarked cs with | some a => a + 1 | none => 0)

/-- One session. -/
theorem commitsMarked_iff (h : IsSession s cs last) :
    CommitsMarked s cs last ↔ lastMarked cs ≠ none ∨ s.pktEnd = BitVec.allOnes _ := by
  obtain ⟨hstands, hmoves⟩ := h.run
  rw [CommitsMarked, hmoves, and_iff_right hstands, add_assoc, add_right_inj]
  cases lastMarked cs with
  | some a => exact iff_of_true rfl (.inl (Option.some_ne_none a))
  | none =>
    rw [or_iff_right (not_not.2 rfl), Option.getD_none]
    -- the pointer stands only where the length of the packet before wraps around
    constructor
    · intro hzero
      rw [eq_neg_of_add_eq_zero_left hzero]
      rfl
    · intro hones
      rw [hones]
      rfl

/-- **When the sessions of a run commit what they marked**: if each of them
marks a word, or begins with the end of the packet on the last address of
the buffer. -/
theorem sessions_commit_iff (s : TxData2Buf) (ins : List TxCycle) :
    (∀ pre cs release post, ins = pre ++ cs ++ release :: post →
      IsSession (run stepCycle s.reset pre) cs release →
      CommitsMarked (run stepCycle s.reset pre) cs release) ↔
    ∀ pre cs release post, ins = pre ++ cs ++ release :: post →
      IsSession (run stepCycle s.reset pre) cs release →
      lastMarked cs ≠ none ∨ (run stepCycle s.reset pre).pktEnd = BitVec.allOnes _ := by
  constructor
  · intro hcommit pre cs release post hins hsession
    exact (commitsMarked_iff hsession).1 (hcommit pre cs release post hins hsession)
  · intro hmark pre cs release post hins hsession
    exact (commitsMarked_iff hsession).2 (hmark pre cs release post hins hsession)

/-- A machine after a reset. -/
def sampleMachine : TxData2Buf :=
  reset {
    state := .idle, offset := 0, pktPtr := 0, pktEnd := 0, rdReq := false
    connectReqIntern := false, selSm := false, wrEn := false, cpuAccGnt := false, dout := 0
    eopOut := false, macHeaderRegFile := Vector.replicate _ 0
    ipHeaderRegFile := Vector.replicate _ 0, ipLength := 0
    udpHeaderRegFile := Vector.replicate _ 0, udpLength := 0, checkSum := 0, idx := 0 }

/-- A cycle in which the CPU drives some signals. -/
def sampleCpuCycle (cpuTx : CpuTx) : TxCycle :=
  ({ cpuTx
     ethRegs := {
       macMod := 0, macSrv := 0, ipMod := 0, ipSrv := 0, udpSrvPrt := fun _ => 0
       udpModPrt := fun _ => 0 } }, 0)

/-- A session that writes nothing, after one that wrote four words: the
pointer moves over four words of the buffer once more. -/
theorem not_sessions_commit :
    ¬ ∀ pre cs release post,
      [sampleCpuCycle { request := true, eop := true, addr := 3, wrEn := true },
        sampleCpuCycle {}, sampleCpuCycle { request := true }, sampleCpuCycle {}] =
          pre ++ cs ++ release :: post →
      IsSession (run stepCycle sampleMachine.reset pre) cs release →
      CommitsMarked (run stepCycle sampleMachine.reset pre) cs release := by
  intro hcommit
  have hsecond := hcommit
    [sampleCpuCycle { request := true, eop := true, addr := 3, wrEn := true }, sampleCpuCycle {}]
    [sampleCpuCycle { request := true }] (sampleCpuCycle {}) [] rfl
    ⟨rfl, ⟨_, _, rfl, rfl⟩, fun c hc => by rw [List.mem_singleton.1 hc]; rfl, rfl⟩
  have hptr := hsecond.2
  revert hptr
  decide +kernel

end Ipmux

end WrCalibration
