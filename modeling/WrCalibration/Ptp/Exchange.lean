import Mathlib.Data.List.Nodup
import Mathlib.Logic.Function.Basic
import WrCalibration.Ptp.Master

/-!
# The exchange of requests and answers

Any number of instances on one network: each is a master that is called with
packets, or asks for the delay itself, in any order, and the network may bring a
frame to anyone, late, often or never. An answer says what came in (`Grounded`),
and frames say who sent them, so an answer that names a port goes back to a
request of that port (`answers_requests`).
-/

namespace WrCalibration

namespace Ptp

open Octets Timing

/-! ## Where a clock identity comes from -/

section Start

variable {P : Ppsi} {start : Start} {ppi : Ppi}

theorem getLsbD_clockIdentityOf (mac : BitVec 48) (i : ℕ) :
    (clockIdentityOf mac).getLsbD i =
      if i < 24 then mac.getLsbD i
      else if i < 40 then (0xFFFE : BitVec 16).getLsbD (i - 24)
      else decide (i < 64) && mac.getLsbD (i - 16) := by
  unfold clockIdentityOf
  simp only [BitVec.getLsbD_append, BitVec.getLsbD_extractLsb']
  split_ifs
  · simp_all
  · rfl
  · omega
  · omega
  · have hindex : 24 + (i - 24 - 16) = i - 16 := by omega
    rw [hindex]
    congr 1
    rw [decide_eq_decide]
    omega

/-- **Different addresses, different clocks.** -/
theorem clockIdentityOf_injective : Function.Injective clockIdentityOf := by
  intro mac mac' h
  have hbits : ∀ i, (clockIdentityOf mac).getLsbD i = (clockIdentityOf mac').getLsbD i :=
    fun i => by rw [h]
  refine BitVec.eq_of_getLsbD_eq fun i hi => ?_
  rcases Nat.lt_or_ge i 24 with hlow | hhigh
  · have hbit := hbits i
    rwa [getLsbD_clockIdentityOf, getLsbD_clockIdentityOf, if_pos hlow, if_pos hlow] at hbit
  · have hbit := hbits (i + 16)
    have hi' : i + 16 < 64 := by omega
    rwa [getLsbD_clockIdentityOf, getLsbD_clockIdentityOf, if_neg (by omega), if_neg (by omega),
      if_neg (by omega), if_neg (by omega), decide_eq_true hi', Bool.true_and, Bool.true_and,
      Nat.add_sub_cancel] at hbit

/-- **Initializing** packs the header of all frames. -/
theorem ppInitializing_spec (hinit : 0 ≤ start.init) (hhook : start.hook = 0) :
    (∃ flagField, Headed flagField (ppInitializing P start ppi).toSender) ∧
      (ppInitializing P start ppi).ds.portIdentity.clockIdentity = clockIdentityOf start.mac ∧
      (ppInitializing P start ppi).sent = ppi.sent := by
  have hnot : ¬ start.hook ≠ 0 := fun h => h hhook
  simp only [ppInitializing, if_neg (not_lt.2 hinit), if_neg hnot]
  exact ⟨⟨_, headed_msgPackHeader _⟩, rfl, trivial⟩

end Start

/-! ## The network -/

/-- A node: its instance, and what it has received, with the times. -/
structure Node where
  ppi : Ppi
  heard : List (Frame × TimeInternal)

variable {ι : Type} [DecidableEq ι] {P : Ppsi} {w : ι → World}
  {table : ι → List (State × StateFunction)}

/-- **A step of one of the nodes.** A master is called, with no packet or with
one that anyone has sent, of which the extension makes no request if it is none;
a node asks for the delay; or a state function from elsewhere, that sends nothing,
asks for a state. -/
inductive Step (P : Ppsi) (w : ι → World) (table : ι → List (State × StateFunction)) :
    (ι → Node) → (ι → Node) → Prop where
  | call (s : ι → Node) (i : ι) (call : Call) (hstate : (s i).ppi.state = .master)
      (hpkt : call.pkt.length = 0 ∨ ∃ j, ∃ f ∈ (s j).ppi.sent, f.frame.ComesAs call.pkt)
      (hmsg : ∀ t, call.masterMsg t = typeInt ppmDelayReq → t = typeInt ppmDelayReq) :
      Step P w table s (Function.update s i
        ⟨activate P (table i) (s i).ppi call, (s i).heard ++ [(call.pkt, call.rcvTime)]⟩)
  | request (s : ι → Node) (i : ι) :
      Step P w table s (Function.update s i
        ⟨(msgIssueDelayReq P (w i) (s i).ppi).1, (s i).heard⟩)
  | move (s : ι → Node) (i : ι) (state : State) :
      Step P w table s (Function.update s i
        ⟨{ (s i).ppi with state := state }, (s i).heard⟩)

/-- The nodes at the start: initialized, with different addresses, and nothing
sent or received. -/
structure Starts (mac : ι → BitVec 48) (s : ι → Node) : Prop where
  addresses : Function.Injective mac
  headed : ∀ i, ∃ flagField, Headed flagField (s i).ppi.toSender
  clockIdentity : ∀ i, (s i).ppi.ds.portIdentity.clockIdentity = clockIdentityOf (mac i)
  sent : ∀ i, (s i).ppi.sent = []
  heard : ∀ i, (s i).heard = []

/-- What is reached. -/
inductive Reaches (P : Ppsi) (w : ι → World) (table : ι → List (State × StateFunction))
    (s₀ : ι → Node) : (ι → Node) → Prop where
  | refl : Reaches P w table s₀ s₀
  | step {s s' : ι → Node} (h : Reaches P w table s₀ s) (hstep : Step P w table s s') :
      Reaches P w table s₀ s'

/-! ## What a node says -/

/-- **A message with a reason**: a node sends Syncs and requests as it likes, and
answers what it has heard. -/
def Grounded (P : Ppsi) (ds : DataSets) (heard : List (Frame × TimeInternal)) : Message → Prop
  | .sync _ => True
  | .delayReq _ => True
  | .delayResp hdr t => ∃ h ∈ heard, hdr = unpackHeader h.1.octets ∧
      t = P.fromTimeInternal h.2 ∧ P.headerLength ≤ h.1.length ∧
      hdr.sourcePortIdentity.clockIdentity ≠ ds.portIdentity.clockIdentity ∧
      hdr.messageType = ppmDelayReq
  | .announce => False
  | .followUp _ => False

/-- **A node since its start**: its frames are those of messages with a reason. -/
structure Told (P : Ppsi) (s₀ : Sender) (node : Node) (ms : List Message) : Prop where
  toSender : node.ppi.toSender = s₀.packs P.toFormat ms
  sent : node.ppi.sent.map Sent.frame = frames P.toFormat s₀ ms
  grounded : ∀ m ∈ ms, Grounded P s₀.ds node.heard m

section Told

variable {s₀ : Sender} {node : Node} {ms ms' : List Message} {m : Message} {ppi' : Ppi}
  {heard heard' : List (Frame × TimeInternal)} {own : DataSets}

theorem Grounded.mono (h : Grounded P own heard m) : Grounded P own (heard ++ heard') m := by
  cases m with
  | sync => trivial
  | announce => exact h
  | followUp => exact h
  | delayReq => trivial
  | delayResp hdr t =>
    obtain ⟨g, hg, hrest⟩ := h
    exact ⟨g, List.mem_append_left _ hg, hrest⟩

theorem frames_append (fmt : Format) (s : Sender) (ms ms' : List Message) :
    frames fmt s (ms ++ ms') = frames fmt s ms ++ frames fmt (s.packs fmt ms) ms' := by
  induction ms generalizing s with
  | nil => rfl
  | cons m ms ih => rw [List.cons_append, frames, frames, ih, List.cons_append, Sender.packs_cons]

/-- What is sent and heard later. -/
theorem Told.append {w : World} (h : Told P s₀ node ms) (hemits : Emits P w ms' node.ppi ppi')
    (hgrounded : ∀ m ∈ ms', Grounded P s₀.ds (node.heard ++ heard') m) :
    Told P s₀ ⟨ppi', node.heard ++ heard'⟩ (ms ++ ms') where
  toSender := by rw [Sender.packs_append, ← h.toSender, hemits.toSender]
  sent := by
    rw [hemits.sent, List.map_append, h.sent, map_frame_sends, frames_append, ← h.toSender]
  grounded m hm := by
    rcases List.mem_append.1 hm with hm | hm
    · exact (h.grounded m hm).mono
    · exact hgrounded m hm

theorem Told.ds (h : Told P s₀ node ms) : node.ppi.ds = s₀.ds := by
  rw [h.toSender, Sender.ds_packs]

end Told

section Call

variable {ppi : Ppi} {call : Call} {heard : List (Frame × TimeInternal)} {n : ℕ}

theorem messageType_of_typeInt {t : BitVec 8} (h : typeInt t = typeInt ppmDelayReq) :
    t = ppmDelayReq := BitVec.eq_of_toNat_eq (Int.ofNat_inj.1 h)

/-- **What a call sends has a reason.** -/
theorem grounded_emitted {w : World} (own : DataSets) (vlans : List (BitVec 16))
    (hmsg : ∀ t, call.masterMsg t = typeInt ppmDelayReq → t = typeInt ppmDelayReq) :
    ∀ m ∈ emitted P w own vlans n call,
      Grounded P own (heard ++ [(call.pkt, call.rcvTime)]) m := by
  intro m hm
  rcases List.mem_append.1 hm with hm | hm
  · -- a Sync
    split_ifs at hm
    · obtain ⟨i, -, rfl⟩ := List.mem_map.1 hm
      trivial
    · cases hm
  · split_ifs at hm
    · cases hm
    · obtain ⟨hdr, hrequest, rfl⟩ := List.mem_map.1 hm
      rw [Option.mem_toList, Call.request] at hrequest
      split_ifs at hrequest with haccepted
      · cases hrequest
        exact ⟨_, List.mem_append_right _ (List.mem_singleton_self _), rfl, rfl, haccepted.1.1,
          haccepted.1.2, messageType_of_typeInt (hmsg _ haccepted.2)⟩

end Call

/-! ## What is reached -/

section Reaches

variable {mac : ι → BitVec 48} {s₀ s s' : ι → Node}

/-- **The network**: each node has told what it has a reason for, and has heard
what someone has sent. -/
structure Consistent (P : Ppsi) (s₀ s : ι → Node) : Prop where
  told : ∀ i, ∃ ms, Told P (s₀ i).ppi.toSender (s i) ms
  heard : ∀ i, ∀ h ∈ (s i).heard, h.1.length = 0 ∨
    ∃ j, ∃ f ∈ (s j).ppi.sent, f.frame.ComesAs h.1

/-- A step of one node leaves what the others have sent, and adds to its own. -/
theorem Consistent.update (h : Consistent P s₀ s) (i : ι) {node : Node} {ms : List Message}
    (hold : ∀ f ∈ (s i).ppi.sent, f ∈ node.ppi.sent)
    (htold : Told P (s₀ i).ppi.toSender node ms)
    (hheard : ∀ g ∈ node.heard, g ∈ (s i).heard ∨ g.1.length = 0 ∨
      ∃ j, ∃ f ∈ (s j).ppi.sent, f.frame.ComesAs g.1) :
    Consistent P s₀ (Function.update s i node) := by
  have hsent : ∀ j, ∀ f ∈ (s j).ppi.sent, f ∈ (Function.update s i node j).ppi.sent := by
    intro j f hf
    rcases eq_or_ne j i with rfl | hne
    · rw [Function.update_self]
      exact hold f hf
    · rwa [Function.update_of_ne hne]
  have hkeep : ∀ g : Frame × TimeInternal, (g.1.length = 0 ∨
      ∃ j, ∃ f ∈ (s j).ppi.sent, f.frame.ComesAs g.1) → g.1.length = 0 ∨
      ∃ j, ∃ f ∈ (Function.update s i node j).ppi.sent, f.frame.ComesAs g.1 := by
    rintro g (hnone | ⟨j, f, hf, hcomes⟩)
    · exact .inl hnone
    · exact .inr ⟨j, f, hsent j f hf, hcomes⟩
  refine ⟨fun j => ?_, fun j g hg => hkeep g ?_⟩
  · rcases eq_or_ne j i with rfl | hne
    · rw [Function.update_self]
      exact ⟨ms, htold⟩
    · rw [Function.update_of_ne hne]
      exact h.told j
  · rcases eq_or_ne j i with rfl | hne
    · rw [Function.update_self] at hg
      exact (hheard g hg).elim (h.heard j g) id
    · rw [Function.update_of_ne hne] at hg
      exact h.heard j g hg

theorem Consistent.step (htable : ∀ i, (table i).find? (fun ip => ip.1 = .master) =
    some (.master, ppMaster P (w i))) (h : Consistent P s₀ s) (hstep : Step P w table s s') :
    Consistent P s₀ s' := by
  cases hstep with
  | call i call hstate hpkt hmsg =>
    obtain ⟨ms, htold⟩ := h.told i
    obtain ⟨hemits, -, -⟩ := emits_activate call (htable i) hstate
    rw [htold.ds] at hemits
    refine h.update i ?_ (htold.append hemits (grounded_emitted _ _ hmsg)) ?_
    · intro f hf
      rw [hemits.sent]
      exact List.mem_append_left _ hf
    · intro g hg
      rcases List.mem_append.1 hg with hg | hg
      · exact .inl hg
      · rw [List.mem_singleton.1 hg]
        exact .inr hpkt
  | request i =>
    obtain ⟨ms, htold⟩ := h.told i
    obtain ⟨hemits, -⟩ := issue_spec (P := P) (w := w i) (s i).ppi
      (.delayReq (P.fromTimeInternal ((w i).now (s i).ppi.sent.length))) true
    have hnext : Told P (s₀ i).ppi.toSender
        ⟨(msgIssueDelayReq P (w i) (s i).ppi).1, (s i).heard ++ []⟩ _ :=
      htold.append hemits (List.forall_mem_singleton.2 trivial)
    rw [List.append_nil] at hnext
    refine h.update i ?_ hnext fun g hg => .inl hg
    intro f hf
    exact hemits.sent ▸ List.mem_append_left _ hf
  | move i state =>
    obtain ⟨ms, htold⟩ := h.told i
    exact h.update i (fun f hf => hf) ⟨htold.toSender, htold.sent, htold.grounded⟩
      fun g hg => .inl hg

omit [DecidableEq ι] in
theorem consistent_of_starts (h : Starts mac s₀) : Consistent P s₀ s₀ where
  told i := ⟨[], rfl, by rw [h.sent i]; rfl, fun m hm => by cases hm⟩
  heard i g hg := by
    rw [h.heard i] at hg
    cases hg

theorem consistent (htable : ∀ i, (table i).find? (fun ip => ip.1 = .master) =
    some (.master, ppMaster P (w i))) (hstarts : Starts mac s₀) (h : Reaches P w table s₀ s) :
    Consistent P s₀ s := by
  induction h with
  | refl => exact consistent_of_starts hstarts
  | step _ hstep ih => exact ih.step htable hstep

end Reaches

/-! ## Answers and requests -/

section Answers

variable {flagField : BitVec 16} {s : Sender} {ms : List Message} {f : Frame}

/-- A frame is that of one of the messages, with the header of its sender. -/
theorem exists_of_mem_frames {fmt : Format} (hheaded : Headed flagField s)
    (hf : f ∈ frames fmt s ms) :
    ∃ m ∈ ms, ∃ s', Headed flagField s' ∧ s'.ds = s.ds ∧ f = m.frame fmt s' := by
  induction ms generalizing s with
  | nil => cases hf
  | cons m ms ih =>
    rcases List.mem_cons.1 hf with rfl | hf
    · exact ⟨m, List.mem_cons_self, s, hheaded, rfl, rfl⟩
    · obtain ⟨m', hm', s', hheaded', hds, rfl⟩ := ih (hheaded.pack m) hf
      exact ⟨m', List.mem_cons_of_mem _ hm', s', hheaded', hds.trans (ds_pack s m), rfl⟩

/-- What a node sends is read as one of its messages. -/
theorem Told.read {s₀ : Sender} {node : Node} (h : Told P s₀ node ms)
    (hheaded : Headed flagField s₀) {x : Sent} (hx : x ∈ node.ppi.sent) :
    ∃ m ∈ ms, ∃ mem : Memory, x.frame.read = mem.tells P.toFormat s₀.ds flagField m ∧
      P.headerLength ≤ x.frame.length := by
  have hf : x.frame ∈ frames P.toFormat s₀ ms := h.sent ▸ List.mem_map_of_mem hx
  obtain ⟨m, hm, s', hheaded', hds, hframe⟩ := exists_of_mem_frames hheaded hf
  refine ⟨m, hm, s'.memory, ?_, ?_⟩
  · rw [hframe, ← hds]
    exact read_comesAs hheaded' m (.refl _)
  · rw [hframe]
    exact header_le_length _ _

/-- A header is in the part of the frame that comes in. -/
theorem Frame.ComesAs.header {g : Frame} (h : f.ComesAs g) (hlong : 34 ≤ f.length) :
    unpackHeader g.octets = f.read.1 :=
  unpackHeader_congr fun j hj => h.octets j (hj.trans_le hlong)

/-- Only answers have the body of an answer. -/
theorem eq_delayResp_of_body {fmt : Format} {own : DataSets} {mem : Memory} {m : Message}
    {resp : MsgDelayResp} (h : (mem.tells fmt own flagField m).2 = some (.delayResp resp)) :
    ∃ hdr t, m = .delayResp hdr t ∧ resp = ⟨t, hdr.sourcePortIdentity⟩ := by
  cases m with
  | delayResp hdr t => exact ⟨hdr, t, rfl, (Body.delayResp.inj (Option.some.inj h)).symm⟩
  | sync => cases h
  | announce => cases h
  | followUp => cases h
  | delayReq => cases h

/-! ### The numbers of the requests -/

/-- What is read as a request. -/
def IsRequest (r : MsgHeader × Option Body) : Bool := r.1.messageType == ppmDelayReq

/-- **Requests are numbered one after another.** -/
theorem numbers_tellsAll (fmt : Format) (own : DataSets) (mem : Memory) (ms : List Message) :
    ∃ n, ((mem.tellsAll fmt own flagField ms).filter IsRequest).map (·.1.sequenceId) =
      (List.range n).map fun i => mem.sentSeq.delayReq + 1 + BitVec.ofNat 16 i := by
  induction ms generalizing mem with
  | nil => exact ⟨0, rfl⟩
  | cons m ms ih =>
    obtain ⟨n, hn⟩ := ih (mem.after m)
    cases m with
    | delayReq t =>
      refine ⟨n + 1, ?_⟩
      rw [Memory.tellsAll, List.filter_cons_of_pos rfl, List.map_cons, hn, List.range_succ_eq_map,
        List.map_cons, List.map_map]
      refine congrArg₂ List.cons (BitVec.add_zero _).symm (List.map_congr_left fun i _ => ?_)
      have hone : BitVec.ofNat 16 (i + 1) = 1 + BitVec.ofNat 16 i := by
        rw [BitVec.ofNat_add, BitVec.add_comm]
        rfl
      rw [Function.comp_apply, Nat.succ_eq_add_one, hone, ← BitVec.add_assoc]
      rfl
    | sync t => exact ⟨n, hn⟩
    | announce => exact ⟨n, hn⟩
    | followUp t => exact ⟨n, hn⟩
    | delayResp hdr t => exact ⟨n, hn⟩

/-- As long as the counter has not gone round, the numbers differ. -/
theorem nodup_numbers {fmt : Format} {own : DataSets} {mem : Memory} {ms : List Message}
    (h : ((mem.tellsAll fmt own flagField ms).filter IsRequest).length ≤ 2 ^ 16) :
    (((mem.tellsAll fmt own flagField ms).filter IsRequest).map (·.1.sequenceId)).Nodup := by
  obtain ⟨n, hn⟩ := numbers_tellsAll fmt own mem ms
  have hlength : n ≤ 2 ^ 16 := by
    have := congrArg List.length hn
    rw [List.length_map, List.length_map, List.length_range] at this
    exact this ▸ h
  rw [hn]
  refine List.Nodup.map_on (fun i hi j hj hij => ?_) List.nodup_range
  rw [List.mem_range] at hi hj
  have hnat := congrArg BitVec.toNat ((BitVec.add_right_inj _).1 hij)
  rwa [BitVec.toNat_ofNat, BitVec.toNat_ofNat, Nat.mod_eq_of_lt (hi.trans_le hlength),
    Nat.mod_eq_of_lt (hj.trans_le hlength)] at hnat

end Answers

/-! ## What an answer goes back to -/

section Exchange

variable {mac : ι → BitVec 48} {s₀ s : ι → Node}

/-- The port of a node. -/
def Node.port (node : Node) : PortIdentity := node.ppi.ds.portIdentity

/-- The requests a node has sent. -/
def Node.requests (node : Node) : List (MsgHeader × Option Body) :=
  (node.ppi.sent.map fun x => x.frame.read).filter IsRequest

/-- **An answer and its request**: the number, the domain and the correction are
copied, and the time is one at which the request came in. -/
structure Answers (P : Ppsi) (node : Node) (hdr : MsgHeader) (resp : MsgDelayResp) (x : Sent) :
    Prop where
  request : IsRequest x.frame.read
  sequenceId : hdr.sequenceId = x.frame.read.1.sequenceId
  domainNumber : hdr.domainNumber = x.frame.read.1.domainNumber
  correction : hdr.correctionMsb = x.frame.read.1.correctionMsb ∧
    hdr.correctionLsb = x.frame.read.1.correctionLsb
  heard : ∃ h ∈ node.heard, x.frame.ComesAs h.1 ∧ resp.receiveTimestamp = P.fromTimeInternal h.2

variable (htable : ∀ i, (table i).find? (fun ip => ip.1 = .master) =
    some (.master, ppMaster P (w i))) (hstarts : Starts mac s₀)

include htable hstarts

theorem exists_request (hreach : Reaches P w table s₀ s) {i : ι} {x : Sent} {resp : MsgDelayResp}
    (hx : x ∈ (s i).ppi.sent) (hresp : x.frame.read.2 = some (.delayResp resp)) :
    ∃ k, k ≠ i ∧ (∀ k', (s k').port = resp.requestingPortIdentity ↔ k' = k) ∧
      ∃ y ∈ (s k).ppi.sent, Answers P (s i) x.frame.read.1 resp y := by
  have hconsistent := consistent htable hstarts hreach
  obtain ⟨ms, htold⟩ := hconsistent.told i
  obtain ⟨flagField, hheaded⟩ := hstarts.headed i
  obtain ⟨m, hm, mem, hread, -⟩ := htold.read hheaded hx
  rw [hread] at hresp
  obtain ⟨hdr, t, rfl, rfl⟩ := eq_delayResp_of_body hresp
  -- the answer has a reason, and the reason was sent by someone
  obtain ⟨h, hmem, hhdr, ht, hlong, hother, htype⟩ := htold.grounded _ hm
  have hheader := P.le_header
  obtain ⟨k, y, hy, hcomes⟩ := (hconsistent.heard i h hmem).resolve_left (by omega)
  obtain ⟨ms', htold'⟩ := hconsistent.told k
  obtain ⟨flagField', hheaded'⟩ := hstarts.headed k
  obtain ⟨m', -, mem', hread', hlong'⟩ := htold'.read hheaded' hy
  rw [hcomes.header (hheader.trans hlong')] at hhdr
  have hport : hdr.sourcePortIdentity = (s k).port := by
    rw [hhdr, hread', Node.port, htold'.ds]
    rfl
  have hclock : ∀ j, (s j).port.clockIdentity = clockIdentityOf (mac j) := by
    intro j
    obtain ⟨_, htold''⟩ := hconsistent.told j
    rw [Node.port, htold''.ds]
    exact hstarts.clockIdentity j
  refine ⟨k, ?_, fun k' => ?_, y, hy, ?_⟩
  · rintro rfl
    rw [hport, hclock] at hother
    exact hother (hstarts.clockIdentity _).symm
  · -- a port identity has the address of its node
    constructor
    · intro heq
      have hids : (s k').port.clockIdentity = (s k).port.clockIdentity := by
        rw [heq]
        exact congrArg PortIdentity.clockIdentity hport
      rw [hclock, hclock] at hids
      exact hstarts.addresses (clockIdentityOf_injective hids)
    · rintro rfl
      exact hport.symm
  · rw [hread]
    subst hhdr
    exact ⟨beq_iff_eq.2 htype, rfl, rfl, ⟨rfl, rfl⟩, h, hmem, hcomes, ht⟩

theorem nodup_requests (hreach : Reaches P w table s₀ s) (k : ι)
    (hcount : (s k).requests.length ≤ 2 ^ 16) :
    ((s k).requests.map (·.1.sequenceId)).Nodup := by
  obtain ⟨ms, htold⟩ := (consistent htable hstarts hreach).told k
  obtain ⟨flagField, hheaded⟩ := hstarts.headed k
  have hread : (s k).ppi.sent.map (fun x => x.frame.read) =
      (s₀ k).ppi.toSender.memory.tellsAll P.toFormat (s₀ k).ppi.ds flagField ms := by
    rw [← read_frames_of_headed hheaded (List.forall₂_same.2 fun f _ => Frame.ComesAs.refl f),
      ← htold.sent, List.map_map]
    rfl
  rw [Node.requests, hread] at hcount ⊢
  exact nodup_numbers hcount

/-- **An answer goes back to a request.** In every run of the nodes, whatever the
network does with the frames: an answer that a node has sent names the port of
another node, and of no third, and that one has sent a request with its number,
its domain and its correction, which came in at the answering node at the time
the answer gives. And as long as a node has not asked more often than its counter
has numbers, no two of its requests have the same number. -/
theorem answers_requests (hreach : Reaches P w table s₀ s) :
    (∀ i, ∀ x ∈ (s i).ppi.sent, ∀ resp, x.frame.read.2 = some (.delayResp resp) →
      ∃ k, k ≠ i ∧ (∀ k', (s k').port = resp.requestingPortIdentity ↔ k' = k) ∧
        ∃ y ∈ (s k).ppi.sent, Answers P (s i) x.frame.read.1 resp y) ∧
    ∀ k, (s k).requests.length ≤ 2 ^ 16 → ((s k).requests.map (·.1.sequenceId)).Nodup :=
  ⟨fun _ _ hx _ hresp => exists_request htable hstarts hreach hx hresp,
    fun k => nodup_requests htable hstarts hreach k⟩

omit [DecidableEq ι] htable hstarts in
/-- Nodes that have been initialized, with different addresses. -/
theorem starts_ppInitializing {start : ι → Start} {ppi : ι → Ppi}
    (hinit : ∀ i, 0 ≤ (start i).init) (hhook : ∀ i, (start i).hook = 0)
    (hmac : Function.Injective fun i => (start i).mac) (hsent : ∀ i, (ppi i).sent = []) :
    Starts (fun i => (start i).mac) fun i => ⟨ppInitializing P (start i) (ppi i), []⟩ where
  addresses := hmac
  headed i := (ppInitializing_spec (hinit i) (hhook i)).1
  clockIdentity i := (ppInitializing_spec (hinit i) (hhook i)).2.1
  sent i := (ppInitializing_spec (hinit i) (hhook i)).2.2.trans (hsent i)
  heard _ := rfl

end Exchange

/-! Node 1 asks, and node 0 answers. -/

/-- Addresses 1 and 2. -/
def sampleStart (i : Fin 2) : Start where
  init := 0
  hook := 0
  mac := BitVec.ofNat 48 (i + 1)
  index := 0
  announceIntvl := 1
  syncIntvl := 0

/-- The start. -/
def sampleNodes (i : Fin 2) : Node := ⟨ppInitializing samplePpsi (sampleStart i) samplePpi, []⟩

/-- Node 0 is a master, -/
def sampleMoved : Fin 2 → Node :=
  Function.update sampleNodes 0 ⟨{ (sampleNodes 0).ppi with state := .master }, []⟩

/-- node 1 asks, -/
def sampleAsked : Fin 2 → Node :=
  Function.update sampleMoved 1
    ⟨(msgIssueDelayReq samplePpsi sampleWorld (sampleMoved 1).ppi).1, (sampleMoved 1).heard⟩

/-- and the request comes in. -/
def sampleRequestCall : Call :=
  sampleCall (((sampleAsked 1).ppi.sent.head?.map Sent.frame).getD ⟨fun _ => 0, 0⟩) false

/-- Node 0 has answered. -/
def sampleAnswered : Fin 2 → Node :=
  Function.update sampleAsked 0
    ⟨activate samplePpsi sampleTable (sampleAsked 0).ppi sampleRequestCall,
      (sampleAsked 0).heard ++ [(sampleRequestCall.pkt, sampleRequestCall.rcvTime)]⟩

theorem starts_sample : Starts (fun i => (sampleStart i).mac) sampleNodes :=
  starts_ppInitializing (fun _ => le_rfl) (fun _ => rfl) (by decide) fun _ => rfl

theorem reaches_sample :
    Reaches samplePpsi (fun _ => sampleWorld) (fun _ => sampleTable) sampleNodes
      sampleAnswered := by
  have hmoved : Reaches samplePpsi (fun _ => sampleWorld) (fun _ => sampleTable) sampleNodes
      sampleMoved := .step .refl (.move _ 0 .master)
  have hasked : Reaches samplePpsi (fun _ => sampleWorld) (fun _ => sampleTable) sampleNodes
      sampleAsked := .step hmoved (.request _ 1)
  refine .step hasked (.call _ 0 sampleRequestCall rfl (.inr ⟨1, ?_⟩) fun t ht => ht)
  exact ⟨_, List.mem_singleton_self _, Frame.ComesAs.refl _⟩

theorem answers_requests_sample : ∃ x ∈ (sampleAnswered 0).ppi.sent, ∃ resp,
    ∃ y ∈ (sampleAnswered 1).ppi.sent,
      Answers samplePpsi (sampleAnswered 0) x.frame.read.1 resp y := by
  obtain ⟨hanswers, -⟩ := answers_requests (fun _ => find_sampleTable) starts_sample reaches_sample
  have hread : (sampleAnswered 0).ppi.sent.map (fun x => x.frame.read.2) =
      [some (.delayResp ⟨⟨0, 5, 6⟩, ⟨0x000000FFFE000002, 1⟩⟩)] := by
    decide +kernel
  obtain ⟨x, hx, hbody⟩ := List.mem_map.1 (hread ▸ List.mem_singleton_self _)
  obtain ⟨k, hne, -, y, hy, hrequest⟩ := hanswers 0 x hx _ hbody
  obtain rfl : k = 1 := by omega
  exact ⟨x, hx, _, y, hy, hrequest⟩

end Ptp

end WrCalibration
