import WrCalibration.Common.Clocked
import WrCalibration.Ptp.Instance

/-!
# What a master sends

A call of the state machine in the master state sends the Syncs that are due
and the answer to a request, and leaves nothing else (`emits_activate`). So the
frames of a whole run are those of a list of messages, which is read off the
calls (`emittedAll`), whatever becomes of the frames.
-/

namespace WrCalibration

namespace Ptp

open Octets Timing Clocked

/-! ## Messages that are sent one after another -/

/-- The sender after some messages. -/
def Sender.packs (fmt : Format) (s : Sender) (ms : List Message) : Sender :=
  ms.foldl (fun s m => m.pack fmt s) s

/-- The frames of messages, with what becomes of each from a send on. -/
def sends (P : Ppsi) (w : World) : Sender → ℕ → List Message → List Sent
  | _, _, [] => []
  | s, n, m :: ms =>
    ⟨m.frame P.toFormat s, w.result n⟩ :: sends P w (m.pack P.toFormat s) (n + 1) ms

/-- What sends do not change. -/
def Ppi.rest (ppi : Ppi) :
    (State × State × Role) × MsgHeader × TimeInternal × List (BitVec 16) :=
  ((ppi.state, ppi.nextState, ppi.role), ppi.receivedPtpHeader, ppi.lastRcvTime, ppi.vlans)

/-- **From one instance to another by sending messages.** -/
structure Emits (P : Ppsi) (w : World) (ms : List Message) (ppi ppi' : Ppi) : Prop where
  toSender : ppi'.toSender = ppi.toSender.packs P.toFormat ms
  sent : ppi'.sent = ppi.sent ++ sends P w ppi.toSender ppi.sent.length ms

section Emits

variable {P : Ppsi} {w : World} {s : Sender} {n : ℕ} {ms ms' : List Message} {m : Message}
  {ppi ppi' ppi'' : Ppi} {call : Call}

@[simp] theorem Sender.packs_cons (fmt : Format) :
    s.packs fmt (m :: ms) = (m.pack fmt s).packs fmt ms := rfl

theorem Sender.packs_append (fmt : Format) :
    s.packs fmt (ms ++ ms') = (s.packs fmt ms).packs fmt ms' := List.foldl_append

@[simp] theorem Sender.ds_packs (fmt : Format) : (s.packs fmt ms).ds = s.ds := by
  induction ms generalizing s with
  | nil => rfl
  | cons m ms ih => rw [packs_cons, ih, ds_pack]

theorem length_sends : (sends P w s n ms).length = ms.length := by
  induction ms generalizing s n with
  | nil => rfl
  | cons m ms ih => rw [sends, List.length_cons, ih, List.length_cons]

theorem sends_append : sends P w s n (ms ++ ms') =
    sends P w s n ms ++ sends P w (s.packs P.toFormat ms) (n + ms.length) ms' := by
  induction ms generalizing s n with
  | nil => rfl
  | cons m ms ih =>
    rw [List.cons_append, sends, sends, ih, List.cons_append, Sender.packs_cons,
      List.length_cons, Nat.add_right_comm, Nat.add_assoc]

theorem map_frame_sends : (sends P w s n ms).map Sent.frame = frames P.toFormat s ms := by
  induction ms generalizing s n with
  | nil => rfl
  | cons m ms ih => rw [sends, List.map_cons, ih, frames]

namespace Emits

theorem of_eq (hsender : ppi'.toSender = ppi.toSender) (hsent : ppi'.sent = ppi.sent) :
    Emits P w [] ppi ppi' where
  toSender := hsender
  sent := by rw [hsent, sends, List.append_nil]

theorem length_sent (h : Emits P w ms ppi ppi') :
    ppi'.sent.length = ppi.sent.length + ms.length := by
  rw [h.sent, List.length_append, length_sends]

theorem ds (h : Emits P w ms ppi ppi') : ppi'.ds = ppi.ds := by
  rw [h.toSender, Sender.ds_packs]

/-- One after the other. -/
theorem append (h : Emits P w ms ppi ppi') (h' : Emits P w ms' ppi' ppi'') :
    Emits P w (ms ++ ms') ppi ppi'' where
  toSender := by rw [h'.toSender, h.toSender, Sender.packs_append]
  sent := by rw [h'.sent, h.length_sent, h.sent, h.toSender, List.append_assoc, sends_append]

end Emits

/-! ## What is issued -/

/-- What `__send_and_log` returns of an event message. -/
def eventError (P : Ppsi) (msglen : ℕ) (result : SendResult) : ℤ :=
  if result.snt < msglen then P.sendError
  else if result.correct = false then P.sendNoStamp
  else 0

/-- **What is issued**: the message is sent, the rest stays. -/
theorem issue_spec (ppi : Ppi) (m : Message) (isEvent : Bool) :
    Emits P w [m] ppi (issue P w ppi m isEvent).1 ∧
      (issue P w ppi m isEvent).1.rest = ppi.rest := by
  simp only [issue, sendAndLog]
  split_ifs <;> exact ⟨⟨rfl, rfl⟩, rfl⟩

theorem issue_snd (ppi : Ppi) (m : Message) : (issue P w ppi m true).2 =
    eventError P (m.length P.toFormat) (w.result ppi.sent.length) := by
  simp only [issue, sendAndLog, eventError, Bool.true_and, Bool.not_eq_true']
  split_ifs <;> rfl

/-- **A Sync**: what is done behind it changes only the time of the send. -/
theorem msgIssueSyncFollowup_spec (ppi : Ppi) :
    Emits P w [.sync (P.fromTimeInternal (w.now ppi.sent.length))] ppi
        (msgIssueSyncFollowup P w ppi).1 ∧
      (msgIssueSyncFollowup P w ppi).1.rest = ppi.rest ∧
      (msgIssueSyncFollowup P w ppi).2 =
        eventError P P.syncLength (w.result ppi.sent.length) := by
  obtain ⟨hemits, hrest⟩ := issue_spec (P := P) (w := w) ppi
    (.sync (P.fromTimeInternal (w.now ppi.sent.length))) true
  have herror := issue_snd (P := P) (w := w) ppi
    (.sync (P.fromTimeInternal (w.now ppi.sent.length)))
  simp only [msgIssueSyncFollowup]
  split_ifs with he
  · exact ⟨hemits, hrest, herror⟩
  · exact ⟨⟨hemits.toSender, hemits.sent⟩, hrest, (not_not.1 he).symm.trans herror⟩

/-- The Syncs of a timeout, from a send on. -/
def syncs (P : Ppsi) (w : World) (n count : ℕ) : List Message :=
  (List.range count).map fun i => .sync (P.fromTimeInternal (w.now (n + i)))

theorem syncs_succ (n count : ℕ) : syncs P w n (count + 1) =
    .sync (P.fromTimeInternal (w.now n)) :: syncs P w (n + 1) count := by
  have hshift : (fun i => Message.sync (P.fromTimeInternal (w.now (n + i)))) ∘ Nat.succ =
      fun i => .sync (P.fromTimeInternal (w.now (n + 1 + i))) := by
    funext i
    rw [Function.comp_apply, Nat.succ_eq_add_one, Nat.add_assoc, Nat.add_comm 1 i]
  rw [syncs, List.range_succ_eq_map, List.map_cons, List.map_map, hshift, Nat.add_zero, syncs]

/-- One for each VLAN. -/
theorem emits_syncs (ppi : Ppi) (vids : List (BitVec 16)) :
    Emits P w (syncs P w ppi.sent.length vids.length) ppi (vids.foldl
      (fun ppi vid => (msgIssueSyncFollowup P w { ppi with peerVid := vid }).1) ppi) ∧
    (vids.foldl (fun ppi vid => (msgIssueSyncFollowup P w { ppi with peerVid := vid }).1)
      ppi).rest = ppi.rest := by
  induction vids generalizing ppi with
  | nil => exact ⟨.of_eq rfl rfl, rfl⟩
  | cons vid vids ih =>
    obtain ⟨hfirst, hrest, -⟩ := msgIssueSyncFollowup_spec (P := P) (w := w)
      { ppi with peerVid := vid }
    obtain ⟨hothers, hrest'⟩ := ih (msgIssueSyncFollowup P w { ppi with peerVid := vid }).1
    have hfirst' : Emits P w [.sync (P.fromTimeInternal (w.now ppi.sent.length))] ppi
        (msgIssueSyncFollowup P w { ppi with peerVid := vid }).1 := ⟨hfirst.toSender, hfirst.sent⟩
    refine ⟨?_, hrest'.trans hrest⟩
    have happend := hfirst'.append hothers
    rw [hfirst'.length_sent] at happend
    rw [List.length_cons, syncs_succ]
    exact happend

/-- One Sync, or one for each VLAN. -/
def Single (P : Ppsi) (vlans : List (BitVec 16)) : Prop :=
  P.vlanArraySize ≤ 1 ∨ vlans.length ≤ 1

instance (P : Ppsi) (vlans : List (BitVec 16)) : Decidable (Single P vlans) :=
  inferInstanceAs (Decidable (_ ∨ _))

/-- The Syncs of a timeout. -/
def dueSyncs (P : Ppsi) (w : World) (vlans : List (BitVec 16)) (n : ℕ) : List Message :=
  syncs P w n (if Single P vlans then 1 else vlans.length)

/-- A Sync that stands for itself and is not sent. -/
def SyncFails (P : Ppsi) (w : World) (vlans : List (BitVec 16)) (n : ℕ) : Prop :=
  Single P vlans ∧ eventError P P.syncLength (w.result n) < 0

instance (P : Ppsi) (w : World) (vlans : List (BitVec 16)) (n : ℕ) :
    Decidable (SyncFails P w vlans n) := inferInstanceAs (Decidable (_ ∧ _))

theorem ppMasterIssueSyncFollowup_spec (ppi : Ppi) :
    Emits P w (dueSyncs P w ppi.vlans ppi.sent.length) ppi
        (ppMasterIssueSyncFollowup P w ppi).1 ∧
      (ppMasterIssueSyncFollowup P w ppi).1.rest = ppi.rest ∧
      ((ppMasterIssueSyncFollowup P w ppi).2 < 0 ↔
        SyncFails P w ppi.vlans ppi.sent.length) := by
  by_cases hsingle : Single P ppi.vlans
  · generalize hvid : (if P.vlanArraySize ≠ 0 ∧ ppi.vlans.length = 1 then ppi.vlans.headD 0
      else 0) = vid
    have hone : ppMasterIssueSyncFollowup P w ppi =
        msgIssueSyncFollowup P w { ppi with peerVid := vid } := by
      rw [← hvid]
      exact if_pos hsingle
    obtain ⟨hemits, hrest, herror⟩ := msgIssueSyncFollowup_spec (P := P) (w := w)
      { ppi with peerVid := vid }
    rw [hone, dueSyncs, if_pos hsingle, herror]
    exact ⟨⟨hemits.toSender, hemits.sent⟩, hrest, (and_iff_right hsingle).symm⟩
  · have hall : ppMasterIssueSyncFollowup P w ppi = (ppi.vlans.foldl (fun ppi vid =>
        (msgIssueSyncFollowup P w { ppi with peerVid := vid }).1) ppi, 0) := if_neg hsingle
    obtain ⟨hemits, hrest⟩ := emits_syncs (P := P) (w := w) ppi ppi.vlans
    rw [hall, dueSyncs, if_neg hsingle]
    exact ⟨hemits, hrest, iff_of_false (lt_irrefl 0) fun h => hsingle h.1⟩

/-! ## A call in the master state -/

/-- A packet with a whole header, from another clock. -/
def Call.Accepted (P : Ppsi) (ds : DataSets) (call : Call) : Prop :=
  P.headerLength ≤ call.pkt.length ∧
    (unpackHeader call.pkt.octets).sourcePortIdentity.clockIdentity ≠
      ds.portIdentity.clockIdentity

instance (P : Ppsi) (ds : DataSets) (call : Call) : Decidable (call.Accepted P ds) :=
  inferInstanceAs (Decidable (_ ∧ _))

/-- The packet as a request: accepted, and left as a request by the extension. -/
def Call.request (P : Ppsi) (ds : DataSets) (call : Call) : Option MsgHeader :=
  let hdr := unpackHeader call.pkt.octets
  if call.Accepted P ds ∧ call.masterMsg (typeInt hdr.messageType) = typeInt ppmDelayReq then
    some hdr
  else none

/-- **What a call sends**: the Syncs that are due, and the answer to a request
unless a Sync has failed. -/
def emitted (P : Ppsi) (w : World) (ds : DataSets) (vlans : List (BitVec 16)) (n : ℕ)
    (call : Call) : List Message :=
  (if call.syncDue then dueSyncs P w vlans n else []) ++
    if call.syncDue ∧ SyncFails P w vlans n then []
    else (call.request P ds).toList.map fun hdr =>
      .delayResp hdr (P.fromTimeInternal call.rcvTime)

/-- The answer to a packet whose header is parsed. -/
def answer (P : Ppsi) (call : Call) (ppi : Ppi) : List Message :=
  if call.masterMsg (typeInt ppi.receivedPtpHeader.messageType) = typeInt ppmDelayReq then
    [.delayResp ppi.receivedPtpHeader (P.fromTimeInternal ppi.lastRcvTime)]
  else []

/-- What the state function leaves as it is. -/
def Ppi.port (ppi : Ppi) : State × Role × List (BitVec 16) := (ppi.state, ppi.role, ppi.vlans)

theorem port_of_rest (h : ppi'.rest = ppi.rest) : ppi'.port = ppi.port := by
  simp only [Ppi.rest, Prod.mk.injEq] at h
  obtain ⟨⟨hstate, -, hrole⟩, -, -, hvlans⟩ := h
  rw [Ppi.port, Ppi.port, hstate, hrole, hvlans]

section Call

variable (call : Call)

/-- The end of `pp_master` sends nothing. -/
theorem ppMasterOut_spec (ppi : Ppi) (e : ℤ) :
    Emits P w [] ppi (ppMasterOut P call ppi e).1 ∧
      (ppMasterOut P call ppi e).1.port = ppi.port := by
  simp only [ppMasterOut, ppMasterFault]
  split_ifs <;> exact ⟨.of_eq rfl rfl, rfl⟩

theorem ppMasterSync_spec (ppi : Ppi) :
    Emits P w (if call.syncDue then dueSyncs P w ppi.vlans ppi.sent.length else []) ppi
        (ppMasterSync P w call ppi).1 ∧
      (ppMasterSync P w call ppi).1.rest = ppi.rest ∧
      (ppMasterSync P w call ppi).2 =
        if call.syncDue ∧ SyncFails P w ppi.vlans ppi.sent.length then 1 else 0 := by
  obtain ⟨hemits, hrest, herror⟩ := ppMasterIssueSyncFollowup_spec (P := P) (w := w) ppi
  unfold ppMasterSync
  cases call.syncDue with
  | true => exact ⟨hemits, hrest, by simp only [if_true, true_and, herror]⟩
  | false => exact ⟨.of_eq rfl rfl, rfl, rfl⟩

/-- The message types that count. -/
theorem typeInt_values : typeInt ppmSync = 0 ∧ typeInt ppmDelayReq = 1 ∧ typeInt ppmAnnounce = 11 :=
  ⟨rfl, rfl, rfl⟩

theorem ppMasterPacket_spec (ppi : Ppi) :
    Emits P w (answer P call ppi) ppi (ppMasterPacket P w call ppi).1 ∧
      (ppMasterPacket P w call ppi).1.port = ppi.port := by
  obtain ⟨hsync, hreq, hannounce⟩ := typeInt_values
  simp only [ppMasterPacket, answer]
  generalize call.masterMsg (typeInt ppi.receivedPtpHeader.messageType) = msgtype
  by_cases hneg : msgtype < 0
  · rw [if_pos hneg, if_neg (by omega)]
    exact ⟨.of_eq rfl rfl, rfl⟩
  by_cases hother : msgtype = typeInt ppmAnnounce ∨ msgtype = typeInt ppmSync
  · obtain ⟨hout, hport⟩ := ppMasterOut_spec (P := P) (w := w) call
      { ppi with nextState := call.handled.2 } call.handled.1
    rw [if_neg hneg, if_pos hother, if_neg (by omega)]
    exact ⟨⟨hout.toSender, hout.sent⟩, hport⟩
  by_cases hanswer : msgtype = typeInt ppmDelayReq
  · obtain ⟨hissue, hrest⟩ := issue_spec (P := P) (w := w) ppi
      (.delayResp ppi.receivedPtpHeader (P.fromTimeInternal ppi.lastRcvTime)) false
    obtain ⟨hout, hport⟩ := ppMasterOut_spec (P := P) (w := w) call
      (msgIssueDelayResp P w ppi ppi.lastRcvTime).1 0
    rw [if_neg hneg, if_neg hother, if_pos hanswer, if_pos hanswer]
    exact ⟨hissue.append hout, hport.trans (port_of_rest hrest)⟩
  · rw [if_neg hneg, if_neg hother, if_neg hanswer, if_neg hanswer]
    exact ppMasterOut_spec call ppi 0

/-- **What `pp_master` sends.** -/
theorem ppMaster_spec (ppi : Ppi) (plen : ℕ) :
    Emits P w ((if call.syncDue then dueSyncs P w ppi.vlans ppi.sent.length else []) ++
        if (call.syncDue ∧ SyncFails P w ppi.vlans ppi.sent.length) ∨ plen = 0 then []
        else answer P call ppi) ppi (ppMaster P w call ppi plen).1 ∧
      (ppMaster P w call ppi plen).1.port = ppi.port := by
  obtain ⟨hsync, hrest, herror⟩ := ppMasterSync_spec (P := P) (w := w) call ppi
  have hiff : (ppMasterSync P w call ppi).2 ≠ 0 ↔
      call.syncDue ∧ SyncFails P w ppi.vlans ppi.sent.length := by
    rw [herror]
    split_ifs with hfails <;> simp [hfails]
  have hport := port_of_rest hrest
  simp only [ppMaster, hiff]
  by_cases hskip : (call.syncDue ∧ SyncFails P w ppi.vlans ppi.sent.length) ∨ plen = 0
  · rw [if_pos hskip, if_pos hskip]
    obtain ⟨hout, hport'⟩ := ppMasterOut_spec (P := P) (w := w) call
      (ppMasterSync P w call ppi).1 (ppMasterSync P w call ppi).2
    exact ⟨hsync.append hout, hport'.trans hport⟩
  · rw [if_neg hskip, if_neg hskip]
    obtain ⟨hpacket, hport'⟩ := ppMasterPacket_spec (P := P) (w := w) call
      (ppMasterSync P w call ppi).1
    have hanswer : answer P call (ppMasterSync P w call ppi).1 = answer P call ppi := by
      simp only [Ppi.rest, Prod.mk.injEq] at hrest
      rw [answer, answer, hrest.2.1, hrest.2.2.1]
    rw [hanswer] at hpacket
    exact ⟨hsync.append hpacket, hport'.trans hport⟩

/-- The header is parsed, and nothing is sent. -/
theorem ppParse_spec (ppi : Ppi) :
    Emits P w [] ppi (ppParse P call ppi).1 ∧ (ppParse P call ppi).1.port = ppi.port ∧
      (ppParse P call ppi).1.lastRcvTime = ppi.lastRcvTime := by
  simp only [ppParse, msgUnpackHeader]
  split_ifs <;> exact ⟨.of_eq rfl rfl, rfl, rfl⟩

/-- What is parsed is what is accepted. -/
theorem ppParse_snd (ppi : Ppi) : (ppParse P call ppi).2 ≠ 0 ↔ call.Accepted P ppi.ds := by
  have hheader := P.le_header
  by_cases hlong : P.headerLength ≤ call.pkt.length
  · have hsome : call.pkt.length ≠ 0 := by omega
    simp only [ppParse, if_neg hsome, if_pos hlong, msgUnpackHeader]
    by_cases hown : (unpackHeader call.pkt.octets).sourcePortIdentity.clockIdentity =
        ppi.ds.portIdentity.clockIdentity
    · simp [Call.Accepted, hown]
    · simp [Call.Accepted, hown, hlong, hsome]
  · have hnot : ¬ call.Accepted P ppi.ds := fun h => hlong h.1
    simp [ppParse, hlong, hnot]

theorem receivedPtpHeader_ppParse (ppi : Ppi) (h : call.Accepted P ppi.ds) :
    (ppParse P call ppi).1.receivedPtpHeader = unpackHeader call.pkt.octets := by
  have hsome : call.pkt.length ≠ 0 := by
    have hheader := P.le_header
    have hlong := h.1
    omega
  simp only [ppParse, if_neg hsome, if_pos h.1, msgUnpackHeader, if_neg h.2]

theorem ppSettle_spec (ppi : Ppi) :
    Emits P w [] ppi (ppSettle ppi).1 ∧ (ppSettle ppi).1.role = ppi.role ∧
      (ppSettle ppi).1.vlans = ppi.vlans ∧ (ppSettle ppi).1.state = ppi.nextState := by
  unfold ppSettle
  split_ifs with hnew
  · exact ⟨.of_eq rfl rfl, rfl, rfl, rfl⟩
  · exact ⟨.of_eq rfl rfl, rfl, rfl, not_not.1 hnew⟩

/-- **What the state function finds**: the instance as it was, the packet parsed,
and no packet unless it is accepted. -/
structure Prepared (P : Ppsi) (call : Call) (ppi ppi' : Ppi) (plen : ℕ) : Prop where
  toSender : ppi'.toSender = ppi.toSender
  sent : ppi'.sent = ppi.sent
  port : ppi'.port = ppi.port
  nextState : ppi'.nextState = ppi.state
  rcvTime : ppi'.lastRcvTime = call.rcvTime
  accepted : plen ≠ 0 ↔ call.Accepted P ppi.ds
  header : plen ≠ 0 → ppi'.receivedPtpHeader = unpackHeader call.pkt.octets

variable {table : List (State × StateFunction)}
  (htable : table.find? (fun ip => ip.1 = .master) = some (.master, ppMaster P w))

include htable in
theorem activate_master (hstate : ppi.state = .master) : ∃ ppi' plen,
    Prepared P call ppi ppi' plen ∧
      activate P table ppi call = (ppSettle (ppMaster P w call ppi' plen).1).1 := by
  obtain ⟨hparse, hport, htime⟩ := ppParse_spec (P := P) (w := w) call
    { ppi with lastRcvTime := call.rcvTime }
  have haccepted := ppParse_snd (P := P) call { ppi with lastRcvTime := call.rcvTime }
  have hheader := receivedPtpHeader_ppParse (P := P) call { ppi with lastRcvTime := call.rcvTime }
  have hactivate : activate P table ppi call =
      (ppStateMachine P table call { ppi with lastRcvTime := call.rcvTime }).1 := rfl
  unfold ppStateMachine at hactivate
  generalize ppParse P call { ppi with lastRcvTime := call.rcvTime } = parsed at *
  have hmaster : parsed.1.state = .master := (congrArg Prod.fst hport).trans hstate
  simp only [hmaster, htable] at hactivate
  refine ⟨{ parsed.1 with state := .master, nextState := .master, nextDelay := 0 }, parsed.2,
    ⟨hparse.toSender, hparse.sent.trans (List.append_nil _), ?_, hstate.symm, htime, haccepted,
      fun h => hheader (haccepted.1 h)⟩, hactivate⟩
  rw [← hmaster]
  exact hport

section Prepared

variable {plen : ℕ}

/-- What is sent then is what is said to be. -/
theorem Prepared.emitted_eq (h : Prepared P call ppi ppi' plen) :
    emitted P w ppi.ds ppi.vlans ppi.sent.length call =
      (if call.syncDue then dueSyncs P w ppi'.vlans ppi'.sent.length else []) ++
        if (call.syncDue ∧ SyncFails P w ppi'.vlans ppi'.sent.length) ∨ plen = 0 then []
        else answer P call ppi' := by
  have hvlans : ppi'.vlans = ppi.vlans := congrArg (·.2.2) h.port
  rw [emitted, hvlans, h.sent]
  congr 1
  by_cases hfails : call.syncDue ∧ SyncFails P w ppi.vlans ppi.sent.length
  · rw [if_pos hfails, if_pos (.inl hfails)]
  by_cases hsome : plen = 0
  · have hnot : ¬ call.Accepted P ppi.ds := fun ha => h.accepted.2 ha hsome
    rw [if_neg hfails, if_pos (.inr hsome), Call.request, if_neg fun hr => hnot hr.1]
    rfl
  · have haccepted := h.accepted.1 hsome
    rw [if_neg hfails, if_neg (not_or.2 ⟨hfails, hsome⟩), answer, h.header hsome, h.rcvTime,
      Call.request]
    simp only [haccepted, true_and]
    split_ifs <;> rfl

end Prepared

include htable in
/-- **A call of a master.** It sends the Syncs that are due, and the answer to a
request. -/
theorem emits_activate (hstate : ppi.state = .master) :
    Emits P w (emitted P w ppi.ds ppi.vlans ppi.sent.length call) ppi
        (activate P table ppi call) ∧
      (activate P table ppi call).role = ppi.role ∧
      (activate P table ppi call).vlans = ppi.vlans := by
  obtain ⟨ppi', plen, hprepared, hactivate⟩ := activate_master call htable hstate
  obtain ⟨hmaster, hport⟩ := ppMaster_spec (P := P) (w := w) call ppi' plen
  obtain ⟨hsettle, hrole, hvlans, -⟩ := ppSettle_spec (P := P) (w := w)
    (ppMaster P w call ppi' plen).1
  have hports := hport.trans hprepared.port
  simp only [Ppi.port, Prod.mk.injEq] at hports
  rw [hactivate, hprepared.emitted_eq]
  refine ⟨?_, hrole.trans hports.2.1, hvlans.trans hports.2.2⟩
  have hsent : Emits P w [] ppi ppi' := .of_eq hprepared.toSender hprepared.sent
  have hall := hsent.append (hmaster.append hsettle)
  rwa [List.nil_append, List.append_nil] at hall

end Call

/-! ## It stays a master -/

/-- **A call that goes well**: the extension and the handlers find no error, and
ask for no other state. -/
structure Call.Calm (P : Ppsi) (call : Call) : Prop where
  masterMsg : 0 ≤ call.masterMsg (typeInt (unpackHeader call.pkt.octets).messageType)
  handled : call.handled.1 ≠ P.sendError ∧ call.handled.2 = .master

/-- A port that is a master, and may be one. -/
structure Ppi.IsMaster (ppi : Ppi) : Prop where
  state : ppi.state = .master
  role : ppi.role ≠ .slave
  slaveOnly : ppi.ds.slaveOnly = false

/-- The state that is asked for is that of a master. -/
structure Ppi.Stays (ppi : Ppi) : Prop where
  nextState : ppi.nextState = .master
  role : ppi.role ≠ .slave
  slaveOnly : ppi.ds.slaveOnly = false

theorem Ppi.Stays.of_emits (h : ppi.Stays) (hemits : Emits P w ms ppi ppi')
    (hrest : ppi'.rest = ppi.rest) : ppi'.Stays := by
  simp only [Ppi.rest, Prod.mk.injEq] at hrest
  obtain ⟨⟨-, hnext, hrole⟩, -⟩ := hrest
  exact ⟨hnext.trans h.nextState, hrole ▸ h.role, hemits.ds ▸ h.slaveOnly⟩

theorem Ppi.Stays.ppMasterOut (h : ppi.Stays) (call : Call) {e : ℤ} (he : e ≠ P.sendError) :
    (ppMasterOut P call ppi e).1.nextState = .master := by
  have hnot : ¬ (e = 0 ∧ (ppi.ds.slaveOnly = true ∨ ppi.role = .slave)) := by
    rintro ⟨-, hds | hrole⟩
    · rw [h.slaveOnly] at hds
      cases hds
    · exact h.role hrole
  simp only [Ptp.ppMasterOut, if_neg he, if_neg hnot, h.nextState]

theorem Ppi.Stays.ppMasterPacket (h : ppi.Stays)
    (hmsg : 0 ≤ call.masterMsg (typeInt ppi.receivedPtpHeader.messageType))
    (hhandled : call.handled.1 ≠ P.sendError ∧ call.handled.2 = .master) :
    (ppMasterPacket P w call ppi).1.nextState = .master := by
  have hzero : (0 : ℤ) ≠ P.sendError := P.sendError_neg.ne'
  simp only [Ptp.ppMasterPacket, if_neg (not_lt.2 hmsg)]
  split_ifs
  · have hasked : Ppi.Stays { ppi with nextState := call.handled.2 } :=
      ⟨hhandled.2, h.role, h.slaveOnly⟩
    exact hasked.ppMasterOut call hhandled.1
  · obtain ⟨hissue, hrest⟩ := issue_spec (P := P) (w := w) ppi
      (.delayResp ppi.receivedPtpHeader (P.fromTimeInternal ppi.lastRcvTime)) false
    exact (h.of_emits hissue hrest).ppMasterOut call hzero
  · exact h.ppMasterOut call hzero

/-- Whatever becomes of a Sync, the master goes on. -/
theorem Ppi.Stays.ppMaster (h : ppi.Stays) {plen : ℕ}
    (hmsg : plen ≠ 0 → 0 ≤ call.masterMsg (typeInt ppi.receivedPtpHeader.messageType))
    (hhandled : call.handled.1 ≠ P.sendError ∧ call.handled.2 = .master) :
    (ppMaster P w call ppi plen).1.nextState = .master := by
  obtain ⟨hsync, hrest, herror⟩ := ppMasterSync_spec (P := P) (w := w) call ppi
  have hstays := h.of_emits hsync hrest
  have hneg := P.sendError_neg
  simp only [Ptp.ppMaster]
  split_ifs with hskip
  · refine hstays.ppMasterOut call ?_
    rw [herror]
    split_ifs <;> omega
  · rw [not_or] at hskip
    refine hstays.ppMasterPacket ?_ hhandled
    simp only [Ppi.rest, Prod.mk.injEq] at hrest
    rw [hrest.2.1]
    exact hmsg hskip.2

variable {table : List (State × StateFunction)}
  (htable : table.find? (fun ip => ip.1 = .master) = some (.master, ppMaster P w))

include htable

theorem Ppi.IsMaster.activate (h : ppi.IsMaster) (hcalm : call.Calm P) :
    (activate P table ppi call).IsMaster := by
  obtain ⟨hemits, hrole, -⟩ := emits_activate call htable h.state
  obtain ⟨ppi', plen, hprepared, hactivate⟩ := activate_master call htable h.state
  have hsame : Emits P w [] ppi ppi' := .of_eq hprepared.toSender hprepared.sent
  have hport : ppi'.role = ppi.role := congrArg (·.2.1) hprepared.port
  have hstays : ppi'.Stays :=
    ⟨hprepared.nextState.trans h.state, hport ▸ h.role, hsame.ds ▸ h.slaveOnly⟩
  have hnext : (ppMaster P w call ppi' plen).1.nextState = .master := hstays.ppMaster
    (fun hsome => (hprepared.header hsome).symm ▸ hcalm.masterMsg) hcalm.handled
  refine ⟨?_, hrole ▸ h.role, hemits.ds ▸ h.slaveOnly⟩
  rw [hactivate, (ppSettle_spec (P := P) (w := w) _).2.2.2, hnext]

/-! ## A run -/

/-- What the calls of a run send, from a send on. -/
def emittedAll (P : Ppsi) (w : World) (ds : DataSets) (vlans : List (BitVec 16)) :
    ℕ → List Call → List Message
  | _, [] => []
  | n, call :: calls =>
    emitted P w ds vlans n call ++
      emittedAll P w ds vlans (n + (emitted P w ds vlans n call).length) calls

theorem emits_run (hmaster : ppi.IsMaster) {calls : List Call} (hcalm : ∀ c ∈ calls, c.Calm P) :
    (run (activate P table) ppi calls).IsMaster ∧
      Emits P w (emittedAll P w ppi.ds ppi.vlans ppi.sent.length calls) ppi
        (run (activate P table) ppi calls) := by
  induction calls generalizing ppi with
  | nil => exact ⟨hmaster, .of_eq rfl rfl⟩
  | cons call calls ih =>
    obtain ⟨hfirst, hrest⟩ := List.forall_mem_cons.1 hcalm
    obtain ⟨hemits, -, hvlans⟩ := emits_activate call htable hmaster.state
    obtain ⟨hstays, hothers⟩ := ih (hmaster.activate htable hfirst) hrest
    rw [hemits.ds, hvlans, hemits.length_sent] at hothers
    exact ⟨hstays, hemits.append hothers⟩

/-- **What a master sends.** In any run of calls without error, whatever becomes
of the frames, the port stays a master; and what any receiver reads in the frames
it has sent is, with its identity, its counters and what is left in the buffer,
what is to be sent in each call: the Syncs that are due, and for each request
from another clock one answer, with the number, the port, the correction and the
time of the request, unless a Sync has failed in the same call. -/
theorem master_sends (hmaster : ppi.IsMaster) {flagField : BitVec 16}
    (hheaded : Headed flagField ppi.toSender) {calls : List Call}
    (hcalm : ∀ c ∈ calls, c.Calm P) {gs : List Frame}
    (hgs : List.Forall₂ Frame.ComesAs (((run (activate P table) ppi calls).sent.drop
      ppi.sent.length).map Sent.frame) gs) :
    (run (activate P table) ppi calls).IsMaster ∧
      gs.map Frame.read = ppi.memory.tellsAll P.toFormat ppi.ds flagField
        (emittedAll P w ppi.ds ppi.vlans ppi.sent.length calls) := by
  obtain ⟨hstays, hemits⟩ := emits_run htable hmaster hcalm
  rw [hemits.sent, List.drop_left, map_frame_sends] at hgs
  exact ⟨hstays, read_frames_of_headed hheaded hgs⟩

end Emits

/-! A Sync that is not sent, and then a request from another clock. -/

/-- No extension, no VLANs. -/
def samplePpsi : Ppsi where
  toFormat := sampleFormat
  vlanArraySize := 0
  sendError := -1
  sendNoStamp := 1
  fromTimeInternal t := ⟨0, BitVec.ofInt 32 t.seconds, BitVec.ofInt 32 t.nanoseconds⟩
  addTimeInternal := tsAdd
  outboundLatency := ⟨0, 0, 0⟩
  versionPtp := 2
  defaultDelayReqInterval := 0
  sendError_neg := by decide
  sendNoStamp_ne := by decide

/-- Only the first send fails. -/
def sampleWorld : World where
  now n := ⟨n, 0, 0⟩
  result n := ⟨if n = 0 then -1 else 60, ⟨n, 10, 0⟩, true⟩

/-- A master. -/
def samplePpi : Ppi where
  toSender := msgPackHeader sampleFormat (sampleSender 0x0100)
  receivedPtpHeader := sampleRequest
  fromCurrentParent := false
  lastRcvTime := ⟨0, 0, 0⟩
  lastSntTime := ⟨0, 0, 0⟩
  ptpTxCount := 0
  peerVid := 0
  vlans := []
  role := .master
  state := .master
  nextState := .master
  nextDelay := 0
  isNewState := true
  sent := []

/-- A call with a packet, or none. -/
def sampleCall (pkt : Frame) (syncDue : Bool) : Call where
  pkt := pkt
  rcvTime := ⟨5, 6, 0⟩
  syncDue := syncDue
  masterMsg := id
  handled := (0, .master)
  msToAnnInterval := 100
  msToSync := 100

/-- A request of another clock. -/
def samplePkt : Frame :=
  (Message.delayReq ⟨0, 3, 4⟩).frame sampleFormat
    (msgPackHeader sampleFormat (sampleSender 0x0200))

/-- The calls. -/
def sampleCalls : List Call := [sampleCall ⟨fun _ => 0, 0⟩ true, sampleCall samplePkt false]

/-- The table of states has the master only. -/
def sampleTable : List (State × StateFunction) := [(.master, ppMaster samplePpsi sampleWorld)]

theorem calm_sampleCall (pkt : Frame) (syncDue : Bool) : (sampleCall pkt syncDue).Calm samplePpsi :=
  ⟨Int.natCast_nonneg _, (by decide : (0 : ℤ) ≠ -1), rfl⟩

theorem isMaster_samplePpi : samplePpi.IsMaster := ⟨rfl, by decide, rfl⟩

theorem calm_sampleCalls : ∀ call ∈ sampleCalls, call.Calm samplePpsi := by
  intro call hcall
  simp only [sampleCalls, List.mem_cons, List.not_mem_nil, or_false] at hcall
  rcases hcall with rfl | rfl <;> exact calm_sampleCall _ _

theorem find_sampleTable : sampleTable.find? (fun ip => ip.1 = .master) =
    some (.master, ppMaster samplePpsi sampleWorld) := rfl

theorem master_sends_sample :
    (run (activate samplePpsi sampleTable) samplePpi sampleCalls).IsMaster ∧
      (((run (activate samplePpsi sampleTable) samplePpi sampleCalls).sent.drop 0).map
        Sent.frame).map (fun f => (f.read.1.messageType, f.read.2)) =
      [(ppmSync, some (.sync ⟨0, 0, 0⟩)),
        (ppmDelayResp, some (.delayResp ⟨⟨0, 5, 6⟩, ⟨0x0200, 1⟩⟩))] := by
  obtain ⟨hstays, hread⟩ := master_sends find_sampleTable isMaster_samplePpi
    (headed_msgPackHeader (sampleSender 0x0100)) calm_sampleCalls
    (List.forall₂_same.2 fun f _ => Frame.ComesAs.refl f)
  refine ⟨hstays, ?_⟩
  have hproject := congrArg (List.map fun r => (r.1.messageType, r.2)) hread
  rw [List.map_map] at hproject
  refine hproject.trans ?_
  decide +kernel

end Ptp

end WrCalibration
