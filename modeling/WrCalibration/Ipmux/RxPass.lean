import WrCalibration.Ipmux.RxStall

/-!
# A pass over a frame of any kind

What the streams get of a frame is settled by its words and the registers
(`delivered`): the payload goes to the stream of its port, and a frame
with an error or for no port goes whole to the CPU. `Passing` says of each
state of the machine how many cycles of the pass are left and how many
words are done, and `Passing.step` is the one lemma about it: a cycle
writes the next of these words or none, and where the streams have room
one cycle less is left.
-/

namespace WrCalibration

namespace Ipmux

open Clocked GenericDpram RxBuf2Data

/-! ## What the streams get -/

/-- The stream of the destination port, for headers without errors. -/
def modPort (regs : EthRegs) (frame : List Word) : Option (Fin numUdpPrts) :=
  if HeaderOk frame then
    (List.finRange numUdpPrts).find? fun k =>
      decide (regs.udpModPrt k = frame.getD (udpHdr + udpIdxDstprt) 0)
  else none

/-- **What a stream gets of a frame.** -/
def delivered (regs : EthRegs) (k : Fin (numUdpPrts + 1)) (frame : List Word) : List Dbus :=
  match modPort regs frame with
  | some j => if k = j.castSucc then payloadOut frame (claimedPayload frame) else []
  | none => if k = Fin.last numUdpPrts then (endMarked frame).map packetDbus else []

/-- The stream of a frame. -/
def streamOf (regs : EthRegs) (frame : List Word) : Fin (numUdpPrts + 1) :=
  (modPort regs frame).elim (Fin.last numUdpPrts) Fin.castSucc

/-- The cycles of a pass, where the streams have room. -/
def passLength (regs : EthRegs) (frame : List Word) : ℕ :=
  match modPort regs frame with
  | some _ => frame.length + 4
  | none => if HeaderOk frame then payload + 4 + frame.length else payload + 3 + frame.length

/-- **A frame that the machine can follow**: longer than its headers, and not
shorter than they claim. -/
structure Legible (regs : EthRegs) (frame : List Word) : Prop where
  long : payload < frame.length
  short : frame.length ≤ maxReservPktBuf
  claimed : ∀ j, modPort regs frame = some j → payload + claimedPayload frame ≤ frame.length

/-- No two streams have the port of a frame. -/
def OnePort (regs : EthRegs) (frame : List Word) : Prop :=
  ∀ j k, regs.udpModPrt j = frame.getD (udpHdr + udpIdxDstprt) 0 →
    regs.udpModPrt k = frame.getD (udpHdr + udpIdxDstprt) 0 → j = k

/-- The stream of a frame with padding has room. -/
def RoomForPadding (regs : EthRegs) (frame : List Word) (full : Streams) : Prop :=
  ∀ j, modPort regs frame = some j → full j.castSucc = true →
    frame.length = payload + claimedPayload frame

variable {ram : GenericDpram rxPktBufAdrsize 17} {regs : EthRegs} {frame : List Word} {n : ℕ}
  {base : BitVec rxPktBufAdrsize} {s : RxReadSide ram} {c : RxInput} {j : Fin numUdpPrts}

theorem modPort_eq_some (h : modPort regs frame = some j) :
    HeaderOk frame ∧ regs.udpModPrt j = frame.getD (udpHdr + udpIdxDstprt) 0 := by
  unfold modPort at h
  split at h
  · rename_i hok
    exact ⟨hok, by simpa using List.find?_some h⟩
  · cases h

/-- One stream and no other has the port. -/
theorem OnePort.iff (hport : OnePort regs frame) (h : modPort regs frame = some j)
    (k : Fin numUdpPrts) :
    regs.udpModPrt k = frame.getD (udpHdr + udpIdxDstprt) 0 ↔ k = j :=
  ⟨fun hk => hport k j hk (modPort_eq_some h).2, fun hk => hk ▸ (modPort_eq_some h).2⟩

theorem onePort_of_injective (h : Function.Injective regs.udpModPrt) : OnePort regs frame :=
  fun _ _ hj hk => h (hj.trans hk.symm)

theorem portFound_eq_false (h : modPort regs frame = none) (hok : HeaderOk frame) :
    ¬ PortFound regs frame := by
  rw [modPort, if_pos hok, List.find?_eq_none] at h
  rintro ⟨k, hk⟩
  exact h k (List.mem_finRange k) (decide_eq_true hk)

theorem passLength_le : passLength regs frame ≤ frame.length + payload + 4 := by
  unfold passLength
  split
  · omega
  · split
    · omega
    · omega

theorem length_le_passLength : frame.length + 4 ≤ passLength regs frame := by
  have hpayload : payload = 21 := rfl
  unfold passLength
  split
  · omega
  · split
    · omega
    · omega

/-- What is left behind some words, where others follow them. -/
theorem drop_eq_append {α : Type} {l w : List α} {a b : ℕ} (h : l.take a ++ w = l.take b) :
    l.drop a = w ++ l.drop b := by
  have hall : l.take a ++ l.drop a = l.take a ++ (w ++ l.drop b) := by
    rw [← List.append_assoc, h, List.take_append_drop, List.take_append_drop]
  exact List.append_cancel_left hall

/-! ## The headers -/

/-- The headers of a frame are read, and no stream is picked yet. -/
structure HeadersSeen (frame : List Word) (base : BitVec rxPktBufAdrsize) (s : RxReadSide ram) :
    Prop extends Checked frame base s where
  streamIntern : s.sm.streamIntern = defaultStream

theorem Reading.headersSeen (h : Reading frame base (memAccTicks + payload) s)
    (hc : Spares base frame c) : HeadersSeen frame base (s.step c) := by
  have hsm : (s.step c).sm = s.sm.headersRead := by
    have hstate := h.state
    rw [if_neg (by decide)] at hstate
    simp [RxReadSide.step, RxBuf2Data.step, hstate, h.idx]
  refine ⟨h.checked hc, ?_⟩
  rw [hsm]
  rfl

/-- The port of a frame is none of ours. -/
structure Unpicked (frame : List Word) (base : BitVec rxPktBufAdrsize) (s : RxReadSide ram) :
    Prop where
  state : s.sm.state = .statusOut
  offset : s.sm.offset = 0
  pktPtr : s.sm.pktPtr = base
  wrReqIntern : s.sm.wrReqIntern = false
  streamIntern : s.sm.streamIntern = defaultStream
  held : ram.Holds s.buffer base 0 (endMarked frame)

theorem HeadersSeen.unpicked (h : HeadersSeen frame base s) (hok : HeaderOk frame)
    (hnone : modPort c.ethRegs frame = none) (hc : Spares base frame c) :
    Unpicked frame base (s.step c) := by
  obtain ⟨u, hread⟩ := h.read
  have hsm : (s.step c).sm = s.sm.pickStream c.ethRegs := by
    simp [RxReadSide.step, RxBuf2Data.step, hread.state, hread.errorVector.2 hok]
  have hstreams : ∀ k, s.sm.portStreams c.ethRegs k = false := fun k => by
    rw [portStreams, hread.header _ (by decide), decide_eq_false_iff_not]
    exact fun hk => portFound_eq_false hnone hok ⟨k, hk⟩
  have hfound : (List.finRange numUdpPrts).any (s.sm.portStreams c.ethRegs) = false := by
    rw [List.any_eq_false]
    exact fun k _ => by rw [hstreams k]; decide
  constructor <;> try rw [hsm]
  · rfl
  · simp [pickStream, hfound]
  · exact hread.pktPtr
  · exact hread.wrReqIntern
  · funext k
    simp only [pickStream, hfound]
    refine Fin.lastCases ?_ (fun k => ?_) k
    · rw [Fin.lastCases_last]
      rfl
    · rw [Fin.lastCases_castSucc, hstreams]
      exact (decide_eq_false (Fin.castSucc_lt_last k).ne).symm
  · exact held_step h.held hc

/-! ## A frame for the CPU -/

/-- **A frame for the CPU**, after some cycles in which its stream had room,
and whether it had in the last one. -/
structure Forwarding (frame : List Word) (base : BitVec rxPktBufAdrsize) (z : ℕ) (full : Bool)
    (s : RxReadSide ram) : Prop where
  pos : full = false → 0 < z
  state : s.sm.state = .transferOtherData
  offset : s.sm.offset = z
  pktPtr : s.sm.pktPtr = base
  wrReqIntern : s.sm.wrReqIntern = !full
  streamIntern : s.sm.streamIntern = defaultStream
  q : s.q = packetWord (decide (doneOf z full + 1 = frame.length))
    (frame.getD (doneOf z full) 0)
  held : ram.Holds s.buffer base 0 (endMarked frame)

theorem fullout_defaultStream (full : Streams) :
    fullout defaultStream full = full (Fin.last numUdpPrts) := by
  have hfind : (List.finRange (numUdpPrts + 1)).find? defaultStream =
      some (Fin.last numUdpPrts) := by
    decide
  rw [fullout, hfind]

/-- One cycle of it, from the first word on. -/
theorem forwarding_of_offset {z : ℕ}
    (hsm : (s.step c).sm = s.sm.transferOtherData (c.full (Fin.last numUdpPrts)))
    (hoffset : s.sm.offset = z) (hptr : s.sm.pktPtr = base)
    (hstream : s.sm.streamIntern = defaultStream)
    (hheld : ram.Holds s.buffer base 0 (endMarked frame)) (hz : z < frame.length)
    (hc : Spares base frame c) :
    Forwarding frame base (z + if c.full (Fin.last numUdpPrts) = false then 1 else 0)
      (c.full (Fin.last numUdpPrts)) (s.step c) := by
  have hq := q_step hheld hc hptr hoffset hz
  have hheld' := held_step hheld hc
  cases hfull : c.full (Fin.last numUdpPrts) with
  | false =>
    rw [hfull] at hsm
    constructor <;> try rw [hsm]
    · exact fun _ => Nat.succ_pos z
    · rfl
    · change s.sm.offset + 1 = _
      rw [hoffset, if_pos rfl]
    · exact hptr
    · rfl
    · exact hstream
    · exact hq
    · exact hheld'
  | true =>
    rw [hfull] at hsm
    constructor <;> try rw [hsm]
    · exact nofun
    · rfl
    · exact hoffset
    · exact hptr
    · rfl
    · exact hstream
    · exact hq
    · exact hheld'

theorem HeadersSeen.forwarding (h : HeadersSeen frame base s) (hbad : ¬ HeaderOk frame)
    (hlen : 0 < frame.length) (hc : Spares base frame c) :
    Forwarding frame base (0 + if c.full (Fin.last numUdpPrts) = false then 1 else 0)
      (c.full (Fin.last numUdpPrts)) (s.step c) := by
  obtain ⟨u, hread⟩ := h.read
  refine forwarding_of_offset ?_ hread.offset hread.pktPtr h.streamIntern h.held hlen hc
  change s.sm.step _ _ _ _ _ = _
  rw [RxBuf2Data.step, hread.state, h.streamIntern, fullout_defaultStream]
  exact if_pos (mt hread.errorVector.1 hbad)

theorem Unpicked.forwarding (h : Unpicked frame base s) (hlen : 0 < frame.length)
    (hc : Spares base frame c) :
    Forwarding frame base (0 + if c.full (Fin.last numUdpPrts) = false then 1 else 0)
      (c.full (Fin.last numUdpPrts)) (s.step c) := by
  refine forwarding_of_offset ?_ h.offset h.pktPtr h.streamIntern h.held hlen hc
  simp [RxReadSide.step, RxBuf2Data.step, h.state, h.streamIntern, fullout_defaultStream,
    defaultStream]

/-- **One word of it**, or a cycle in which the stream is full. -/
theorem Forwarding.step {z : ℕ} {full : Bool} (h : Forwarding frame base z full s)
    (hz : z < frame.length) (hc : Spares base frame c) :
    Forwarding frame base (z + if c.full (Fin.last numUdpPrts) = false then 1 else 0)
      (c.full (Fin.last numUdpPrts)) (s.step c) := by
  refine forwarding_of_offset ?_ h.offset h.pktPtr h.streamIntern h.held hz hc
  have hgoes : ¬ (packetEop s.q && s.sm.wrReqIntern) = true := by
    rw [h.q, packetEop_packetWord, h.wrReqIntern, Bool.and_eq_true, decide_eq_true_eq]
    rintro ⟨hlast, hopen⟩
    cases full with
    | false =>
      have hpos := h.pos rfl
      change z - 1 + 1 = _ at hlast
      omega
    | true => cases hopen
  change s.sm.step _ _ _ _ _ = _
  rw [RxBuf2Data.step, h.state, h.streamIntern, fullout_defaultStream]
  exact if_neg hgoes

/-- Its end. -/
theorem Forwarding.waiting {z : ℕ} (h : Forwarding frame base z false s) (hz : z = frame.length) :
    Waiting (base + BitVec.ofNat rxPktBufAdrsize frame.length) (s.step c).sm := by
  have hpos := h.pos rfl
  have hlast : doneOf z false + 1 = frame.length := by
    change z - 1 + 1 = _
    omega
  have hsm : (s.step c).sm = s.sm.nextPacket := by
    simp [RxReadSide.step, RxBuf2Data.step, h.state, h.q, hlast, h.wrReqIntern]
  rw [hsm, ← hz, ← h.offset, ← h.pktPtr]
  exact waiting_nextPacket _

/-- What a cycle writes to the CPU. -/
theorem Forwarding.written {z : ℕ} {full : Bool} (h : Forwarding frame base z full s)
    (hdone : doneOf z full < frame.length) :
    ((endMarked frame).map packetDbus).take (doneOf z full) ++
        (RxReadSide.written (Fin.last numUdpPrts) (s, c)).toList =
      ((endMarked frame).map packetDbus).take z := by
  cases full with
  | true =>
    rw [written_of_quiet h.wrReqIntern, Option.toList_none, List.append_nil]
    rfl
  | false =>
    obtain ⟨t, rfl⟩ : ∃ t, z = t + 1 := ⟨z - 1, by have := h.pos rfl; omega⟩
    have hq := h.q
    change s.q = packetWord (decide (t + 1 = _)) (frame.getD t 0) at hq
    have ht : t < (endMarked frame).length := by rwa [length_endMarked]
    change ((endMarked frame).map packetDbus).take t ++ _ = _
    rw [List.take_add_one, List.getElem?_map, List.getElem?_eq_getElem ht, getElem_endMarked,
      ← hq]
    simp [RxReadSide.written, rxStreamSel, h.streamIntern, h.wrReqIntern, defaultStream,
      packetDbus]

/-- Nothing is written to any other stream. -/
theorem Forwarding.written_of_ne {z : ℕ} {full : Bool} (h : Forwarding frame base z full s)
    {k : Fin (numUdpPrts + 1)} (hk : k ≠ Fin.last numUdpPrts) :
    RxReadSide.written k (s, c) = none := by
  simp [RxReadSide.written, rxStreamSel, h.streamIntern, defaultStream, hk]

/-! ## A pass -/

/-- **Where the machine is in a pass**: the cycles that are left of it where
its stream has room, and the words that are written. -/
inductive Passing (regs : EthRegs) (frame : List Word) (base : BitVec rxPktBufAdrsize) :
    ℕ → ℕ → RxReadSide ram → Prop
  | reading {m : ℕ} {s : RxReadSide ram} : 0 < m → m ≤ payload + 1 → Reading frame base m s →
    Passing regs frame base (passLength regs frame - m) 0 s
  | headersSeen {s : RxReadSide ram} : HeadersSeen frame base s →
    Passing regs frame base (passLength regs frame - (payload + 2)) 0 s
  | picked {j : Fin numUdpPrts} {s : RxReadSide ram} : modPort regs frame = some j →
    Picked frame (claimedPayload frame) base j s →
    Passing regs frame base (frame.length + 1 - payload) 0 s
  | unpicked {s : RxReadSide ram} : modPort regs frame = none → Unpicked frame base s →
    Passing regs frame base (frame.length + 1) 0 s
  | transfer {j : Fin numUdpPrts} {z : ℕ} {full : Bool} {s : RxReadSide ram} :
    modPort regs frame = some j →
    (full = true → frame.length = payload + claimedPayload frame) →
    AtOpen frame (claimedPayload frame) base j z full s →
    Passing regs frame base (frame.length + 1 - (payload + z)) (doneOf z full) s
  | forwarding {z : ℕ} {full : Bool} {s : RxReadSide ram} : modPort regs frame = none →
    doneOf z full < frame.length → Forwarding frame base z full s →
    Passing regs frame base (frame.length + 1 - z) (doneOf z full) s
  | behind {s : RxReadSide ram} :
    Waiting (base + BitVec.ofNat rxPktBufAdrsize frame.length) s.sm →
    Passing regs frame base 0 frame.length s

/-- What one cycle of a pass comes to: the next word is written, or none, and
one cycle less is left, or no more. -/
structure PassStep (regs : EthRegs) (frame : List Word) (base : BitVec rxPktBufAdrsize)
    (left done : ℕ) (s : RxReadSide ram) (c : RxInput) (left' done' : ℕ) : Prop where
  passing : Passing regs frame base left' done' (s.step c)
  le : left' ≤ left
  room : c.full (streamOf regs frame) = false → left' + 1 = left
  written : ∀ k, (delivered regs k frame).drop done =
    (RxReadSide.written k (s, c)).toList ++ (delivered regs k frame).drop done'

theorem written_quiet_drop {done : ℕ} (h : s.sm.wrReqIntern = false) (k : Fin (numUdpPrts + 1)) :
    (delivered regs k frame).drop done =
      (RxReadSide.written k (s, c)).toList ++ (delivered regs k frame).drop done := by
  rw [written_of_quiet h, Option.toList_none, List.nil_append]

theorem delivered_of_some (h : modPort regs frame = some j) (k : Fin (numUdpPrts + 1)) :
    delivered regs k frame =
      if k = j.castSucc then payloadOut frame (claimedPayload frame) else [] := by
  rw [delivered, h]

theorem delivered_of_none (h : modPort regs frame = none) (k : Fin (numUdpPrts + 1)) :
    delivered regs k frame =
      if k = Fin.last numUdpPrts then (endMarked frame).map packetDbus else [] := by
  rw [delivered, h]

/-- A cycle of the transfer of a payload, the first one or a later one. -/
theorem passStep_transfer {done z : ℕ} (hj : modPort regs frame = some j)
    (hroom : RoomForPadding regs frame c.full)
    (hat : AtOpen frame (claimedPayload frame) base j
      (z + if c.full j.castSucc = false then 1 else 0) (c.full j.castSucc) (s.step c))
    (hwritten : ∀ k, (delivered regs k frame).drop done =
      (RxReadSide.written k (s, c)).toList ++ (delivered regs k frame).drop z) :
    PassStep regs frame base (frame.length + 1 - (payload + z)) done s c
      (frame.length + 1 - (payload + (z + if c.full j.castSucc = false then 1 else 0))) z where
  passing := by
    have hpassing := Passing.transfer hj (hroom j hj) hat
    rwa [doneOf_add] at hpassing
  le := by omega
  room hopen := by
    have hle := hat.pos_le
    rw [streamOf, hj] at hopen
    change c.full j.castSucc = false at hopen
    rw [if_pos hopen] at hle ⊢
    omega
  written := hwritten

/-- A cycle of a frame for the CPU. -/
theorem passStep_forwarding {done z : ℕ} (hnone : modPort regs frame = none)
    (hz : z < frame.length)
    (hat : Forwarding frame base
      (z + if c.full (Fin.last numUdpPrts) = false then 1 else 0) (c.full (Fin.last numUdpPrts))
      (s.step c))
    (hwritten : ∀ k, (delivered regs k frame).drop done =
      (RxReadSide.written k (s, c)).toList ++ (delivered regs k frame).drop z) :
    PassStep regs frame base (frame.length + 1 - z) done s c
      (frame.length + 1 - (z + if c.full (Fin.last numUdpPrts) = false then 1 else 0)) z where
  passing := by
    have hpassing := Passing.forwarding hnone (by rwa [doneOf_add]) hat
    rwa [doneOf_add] at hpassing
  le := by omega
  room hopen := by
    rw [streamOf, hnone] at hopen
    change c.full (Fin.last numUdpPrts) = false at hopen
    rw [if_pos hopen]
    omega
  written := hwritten

section Step

variable (hframe : Legible regs frame) (hc : Spares base frame c)
include hframe hc

theorem Passing.step_reading {m : ℕ} (hm : 0 < m) (hm' : m ≤ payload + 1)
    (h : Reading frame base m s) :
    ∃ left' done', PassStep regs frame base (passLength regs frame - m) 0 s c left' done' := by
  have hlong := hframe.long
  have hlength : frame.length + 4 ≤ passLength regs frame := length_le_passLength
  have hquiet : ∀ k, (delivered regs k frame).drop 0 =
      (RxReadSide.written k (s, c)).toList ++ (delivered regs k frame).drop 0 :=
    written_quiet_drop h.wrReqIntern
  rcases Nat.lt_or_ge payload m with hlt | hge
  · obtain rfl : m = memAccTicks + payload := by
      change m = 1 + payload
      omega
    refine ⟨_, _, .headersSeen (h.headersSeen hc), ?_, fun _ => ?_, hquiet⟩
    · change _ - (payload + 2) ≤ _ - (1 + payload)
      omega
    · change _ - (payload + 2) + 1 = _ - (1 + payload)
      omega
  · exact ⟨_, _, .reading (by omega) (by omega) (h.step hm hge hlong hc), by omega,
      fun _ => by omega, hquiet⟩

theorem Passing.step_headersSeen (hone : OnePort regs frame)
    (hregs : c.ethRegs = regs) (h : HeadersSeen frame base s) :
    ∃ left' done',
      PassStep regs frame base (passLength regs frame - (payload + 2)) 0 s c left' done' := by
  have hlong := hframe.long
  obtain ⟨u, hread⟩ := h.read
  have hquiet : ∀ k, (delivered regs k frame).drop 0 =
      (RxReadSide.written k (s, c)).toList ++ (delivered regs k frame).drop 0 :=
    written_quiet_drop hread.wrReqIntern
  cases hport : modPort regs frame with
  | some j =>
    have hlength : passLength regs frame = frame.length + 4 := by simp only [passLength, hport]
    have hnext := h.picked (modPort_eq_some hport).1 (hregs ▸ hone.iff hport) hc
    exact ⟨_, _, .picked hport hnext, by omega, fun _ => by omega, hquiet⟩
  | none =>
    by_cases hok : HeaderOk frame
    · have hlength : passLength regs frame = payload + 4 + frame.length := by
        simp only [passLength, hport, if_pos hok]
      have hnext := h.unpicked hok (hregs ▸ hport) hc
      exact ⟨_, _, .unpicked hport hnext, by omega, fun _ => by omega, hquiet⟩
    · have hlength : passLength regs frame = payload + 3 + frame.length := by
        simp only [passLength, hport, if_neg hok]
      have hnext := h.forwarding hok (by omega) hc
      have hleft : passLength regs frame - (payload + 2) = frame.length + 1 - 0 := by omega
      rw [hleft]
      exact ⟨_, _, passStep_forwarding hport (by omega) hnext hquiet⟩

theorem Passing.step_transfer {z : ℕ} {full : Bool} (hj : modPort regs frame = some j)
    (hpad : full = true → frame.length = payload + claimedPayload frame)
    (hroom : RoomForPadding regs frame c.full)
    (h : AtOpen frame (claimedPayload frame) base j z full s) :
    ∃ left' done', PassStep regs frame base (frame.length + 1 - (payload + z)) (doneOf z full) s c
      left' done' := by
  have hclaimed := hframe.claimed j hj
  have hwritten : ∀ k, (delivered regs k frame).drop (doneOf z full) =
      (RxReadSide.written k (s, c)).toList ++ (delivered regs k frame).drop z := by
    intro k
    rw [delivered_of_some hj]
    by_cases hk : k = j.castSucc
    · subst hk
      rw [if_pos rfl]
      exact drop_eq_append (h.written hclaimed)
    · rw [if_neg hk, h.written_of_ne hk]
      simp
  by_cases hend : Ends frame.length (claimedPayload frame) z full
  · have hz : payload + z = frame.length := by
      cases full with
      | false => simpa [Ends] using hend
      | true =>
        have hnopad := hpad rfl
        simp only [Ends, if_true] at hend
        omega
    have hwait := h.waiting (c := c) hend hclaimed
    rw [hz] at hwait
    refine ⟨_, _, .behind hwait, Nat.zero_le _, fun _ => by omega, fun k => ?_⟩
    rw [hwritten, delivered_of_some hj]
    by_cases hk : k = j.castSucc
    · have hlength := length_payloadOut hclaimed
      rw [if_pos hk, List.drop_eq_nil_of_le (by omega), List.drop_eq_nil_of_le (by omega)]
    · rw [if_neg hk, List.drop_nil, List.drop_nil]
  · exact ⟨_, _, passStep_transfer hj hroom (h.step hend hc) hwritten⟩

omit hframe in
theorem Passing.step_forwarding {z : ℕ} {full : Bool} (hnone : modPort regs frame = none)
    (hdone : doneOf z full < frame.length) (h : Forwarding frame base z full s) :
    ∃ left' done', PassStep regs frame base (frame.length + 1 - z) (doneOf z full) s c
      left' done' := by
  have hwritten : ∀ k, (delivered regs k frame).drop (doneOf z full) =
      (RxReadSide.written k (s, c)).toList ++ (delivered regs k frame).drop z := by
    intro k
    rw [delivered_of_none hnone]
    by_cases hk : k = Fin.last numUdpPrts
    · subst hk
      rw [if_pos rfl]
      exact drop_eq_append (h.written hdone)
    · rw [if_neg hk, h.written_of_ne hk]
      simp
  rcases Nat.lt_or_ge z frame.length with hlt | hge
  · exact ⟨_, _, passStep_forwarding hnone hlt (h.step hlt hc) hwritten⟩
  · cases full with
    | true => exact absurd hdone (Nat.not_lt.2 hge)
    | false =>
      have hpos := h.pos rfl
      have hend : z = frame.length := by
        change z - 1 < _ at hdone
        omega
      exact ⟨_, _, .behind (h.waiting hend), Nat.zero_le _, fun _ => by omega, by
        rwa [hend] at hwritten ⊢⟩

/-- **One cycle of a pass.** -/
theorem Passing.step {left done : ℕ} (h : Passing regs frame base left done s) (hleft : 0 < left)
    (hone : OnePort regs frame) (hregs : c.ethRegs = regs)
    (hroom : RoomForPadding regs frame c.full) :
    ∃ left' done', PassStep regs frame base left done s c left' done' := by
  have hlong := hframe.long
  cases h with
  | reading hm hm' h => exact Passing.step_reading hframe hc hm hm' h
  | headersSeen h => exact Passing.step_headersSeen hframe hc hone hregs h
  | @picked j _ hj h =>
    exact ⟨_, _, passStep_transfer (z := 0) hj hroom (by
      rw [Nat.zero_add]
      exact h.atOpen hlong hc) (written_quiet_drop h.wrReqIntern)⟩
  | unpicked hnone h =>
    exact ⟨_, _, passStep_forwarding hnone (by omega) (h.forwarding (by omega) hc)
      (written_quiet_drop h.wrReqIntern)⟩
  | transfer hj hpad h => exact Passing.step_transfer hframe hc hj hpad hroom h
  | forwarding hnone hz h => exact Passing.step_forwarding hc hnone hz h
  | behind h => exact absurd hleft (Nat.lt_irrefl _)

end Step

end Ipmux

end WrCalibration
