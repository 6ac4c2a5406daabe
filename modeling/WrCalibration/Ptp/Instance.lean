import WrCalibration.Ptp.Frame

/-!
# An instance of the protocol

`struct pp_instance` with what sends and receives for it, the state machine
that is called with each packet, and its master state. What is asked of the
world is an input: the clock and the network give an answer to each send
(`World`), and a call has a packet, the timers, and what an extension and the
handlers of other messages make of it (`Call`).
-/

namespace WrCalibration

namespace Ptp

open Octets Timing

/-! ## Data -/

/-- The states that are named here. -/
inductive State where
  | initializing
  | faulty
  | listening
  | master
  | wrLinkOn
  | other (n : ℕ)
  deriving DecidableEq

/-- `ppi->role` -/
inductive Role where
  | auto
  | master
  | slave
  deriving DecidableEq

/-- What `n_ops->send` makes of a frame: the octets it says are sent, and the
timestamp. -/
structure SendResult where
  snt : ℤ
  wrTs : TimeInternal
  correct : Bool

/-- A frame that was handed to `n_ops->send`. -/
structure Sent where
  frame : Frame
  result : SendResult

/-- `struct pp_instance`, and all it has handed to `n_ops->send`. -/
structure Ppi extends Sender where
  receivedPtpHeader : MsgHeader
  fromCurrentParent : Bool
  lastRcvTime : TimeInternal
  lastSntTime : TimeInternal
  ptpTxCount : ℕ
  peerVid : BitVec 16
  vlans : List (BitVec 16)
  role : Role
  state : State
  nextState : State
  nextDelay : ℤ
  isNewState : Bool
  sent : List Sent

/-- What `ppsi.h` gives to the instance. The cases of one `switch` differ, and
errors are negative. -/
structure Ppsi extends Format where
  vlanArraySize : ℕ
  sendError : ℤ
  sendNoStamp : ℤ
  fromTimeInternal : TimeInternal → Timestamp
  addTimeInternal : TimeInternal → TimeInternal → TimeInternal
  outboundLatency : TimeInternal
  versionPtp : BitVec 8
  defaultDelayReqInterval : BitVec 8
  sendError_neg : sendError < 0
  sendNoStamp_ne : sendNoStamp ≠ 0 ∧ sendNoStamp ≠ sendError

/-- **The world of an instance**: what the clock shows when a message is sent,
and what becomes of it, by the number of the send. -/
structure World where
  now : ℕ → TimeInternal
  result : ℕ → SendResult

/-- **A call**: the packet and its timestamp, whether the Sync timer is up, what
the extension makes of the message type, what the handlers of other messages
return and the state they ask for, and the time to the next timeouts. The
extension and the handlers give no more than that: they send nothing, and leave
the buffer, the identity and the role of the port as they are. -/
structure Call where
  pkt : Frame
  rcvTime : TimeInternal
  syncDue : Bool
  masterMsg : ℤ → ℤ
  handled : ℤ × State
  msToAnnInterval : ℤ
  msToSync : ℤ

section Instance

variable (P : Ppsi) (w : World)

/-! ## Sending -/

/-- `__send_and_log`; the timestamp stored is that of `wrpc_net_send`. -/
def sendAndLog (ppi : Ppi) (msglen : ℕ) (isEvent : Bool) : Ppi × ℤ :=
  let result := w.result ppi.sent.length
  let ppi := { ppi with
    lastSntTime := (Event.send result.wrTs).stamp
    sent := ppi.sent ++ [⟨⟨ppi.txPtp, msglen⟩, result⟩] }
  if result.snt < msglen then (ppi, P.sendError)
  else if isEvent && !result.correct then (ppi, P.sendNoStamp)
  else ({ ppi with ptpTxCount := ppi.ptpTxCount + 1 }, 0)

/-- Packs a message and sends it. -/
def issue (ppi : Ppi) (m : Message) (isEvent : Bool) : Ppi × ℤ :=
  sendAndLog P w { ppi with toSender := m.pack P.toFormat ppi.toSender } (m.length P.toFormat)
    isEvent

/-- `msg_issue_sync_followup`: the follow-up is not sent. -/
def msgIssueSyncFollowup (ppi : Ppi) : Ppi × ℤ :=
  let tstamp := P.fromTimeInternal (w.now ppi.sent.length)
  let (ppi, e) := issue P w ppi (.sync tstamp) true
  if e ≠ 0 then (ppi, e)
  else ({ ppi with lastSntTime := P.addTimeInternal ppi.lastSntTime P.outboundLatency }, 0)

/-- `msg_issue_delay_req` -/
def msgIssueDelayReq (ppi : Ppi) : Ppi × ℤ :=
  issue P w ppi (.delayReq (P.fromTimeInternal (w.now ppi.sent.length))) true

/-- `msg_issue_delay_resp` -/
def msgIssueDelayResp (ppi : Ppi) (time : TimeInternal) : Ppi × ℤ :=
  issue P w ppi (.delayResp ppi.receivedPtpHeader (P.fromTimeInternal time)) false

/-- `pp_master_issue_sync_followup`: one Sync, or one for each of several VLANs
with what becomes of it ignored. -/
def ppMasterIssueSyncFollowup (ppi : Ppi) : Ppi × ℤ :=
  let vlan := if P.vlanArraySize ≠ 0 ∧ ppi.vlans.length = 1 then ppi.vlans.headD 0 else 0
  if P.vlanArraySize ≤ 1 ∨ ppi.vlans.length ≤ 1 then
    msgIssueSyncFollowup P w { ppi with peerVid := vlan }
  else
    (ppi.vlans.foldl (fun ppi vid => (msgIssueSyncFollowup P w { ppi with peerVid := vid }).1) ppi,
      0)

/-! ## The master -/

/-- `out_fault` of `pp_master` -/
def ppMasterFault (ppi : Ppi) (e : ℤ) : Ppi × ℤ :=
  ({ ppi with nextState := .faulty, nextDelay := 500 }, e)

/-- `out` of `pp_master` -/
def ppMasterOut (call : Call) (ppi : Ppi) (e : ℤ) : Ppi × ℤ :=
  if e = P.sendError then ppMasterFault ppi e
  else
    let ppi := if e = 0 ∧ (ppi.ds.slaveOnly = true ∨ ppi.role = .slave) then
        { ppi with nextState := .listening }
      else ppi
    ({ ppi with nextDelay := min call.msToAnnInterval call.msToSync },
      if e = P.sendNoStamp then 0 else e)

/-- The message type as `int`. -/
def typeInt (messageType : BitVec 8) : ℤ := messageType.toNat

/-- The Sync of `pp_master`. The comparison with 0 binds tighter than the
assignment, so its error is 1. -/
def ppMasterSync (call : Call) (ppi : Ppi) : Ppi × ℤ :=
  if call.syncDue then
    let (ppi, e) := ppMasterIssueSyncFollowup P w ppi
    (ppi, if e < 0 then 1 else 0)
  else (ppi, 0)

/-- The packet in `pp_master`. -/
def ppMasterPacket (call : Call) (ppi : Ppi) : Ppi × ℤ :=
  let msgtype := call.masterMsg (typeInt ppi.receivedPtpHeader.messageType)
  if msgtype < 0 then ppMasterFault ppi msgtype
  else if msgtype = typeInt ppmAnnounce ∨ msgtype = typeInt ppmSync then
    ppMasterOut P call { ppi with nextState := call.handled.2 } call.handled.1
  else if msgtype = typeInt ppmDelayReq then
    ppMasterOut P call (msgIssueDelayResp P w ppi ppi.lastRcvTime).1 0
  else ppMasterOut P call ppi 0

/-- `pp_master`: after a Sync that failed the packet is not looked at. -/
def ppMaster (call : Call) (ppi : Ppi) (plen : ℕ) : Ppi × ℤ :=
  let (ppi, e) := ppMasterSync P w call ppi
  if e ≠ 0 ∨ plen = 0 then ppMasterOut P call ppi e
  else ppMasterPacket P w call ppi

/-! ## The state machine -/

/-- `msg_unpack_header`: -1 for what comes from this clock. -/
def msgUnpackHeader (ppi : Ppi) (buf : Octets) : Ppi × ℤ :=
  let hdr := unpackHeader buf
  let ppi := { ppi with receivedPtpHeader := hdr }
  if hdr.sourcePortIdentity.clockIdentity = ppi.ds.portIdentity.clockIdentity then (ppi, -1)
  else
    let parent := ppi.ds.parentPortIdentity
    let fromParent := decide (parent.portNumber = 0 ∨ parent = hdr.sourcePortIdentity)
    ({ ppi with fromCurrentParent := fromParent }, 0)

/-- The packet of a call: its header is parsed, and with an error there is no
packet. -/
def ppParse (call : Call) (ppi : Ppi) : Ppi × ℕ :=
  if call.pkt.length = 0 then (ppi, 0)
  else
    let (ppi, err) : Ppi × ℤ :=
      if P.headerLength ≤ call.pkt.length then msgUnpackHeader ppi call.pkt.octets else (ppi, 1)
    (ppi, if err ≠ 0 then 0 else call.pkt.length)

/-- A state function. -/
abbrev StateFunction := Call → Ppi → ℕ → Ppi × ℤ

/-- A new state is marked, and entered at once. -/
def ppSettle (ppi : Ppi) : Ppi × ℤ :=
  if ppi.state ≠ ppi.nextState then ({ ppi with state := ppi.nextState, isNewState := true }, 0)
  else ({ ppi with isNewState := false }, ppi.nextDelay)

/-- `pp_state_machine` on a table of states; it returns the delay. -/
def ppStateMachine (table : List (State × StateFunction)) (call : Call) (ppi : Ppi) : Ppi × ℤ :=
  let (ppi, plen) := ppParse P call ppi
  match table.find? (fun ip => ip.1 = ppi.state) with
  | none => (ppi, 10000)
  | some ip => ppSettle (ip.2 call { ppi with nextState := ppi.state, nextDelay := 0 } plen).1

/-- A receive, which stores the timestamp, and the state machine. -/
def activate (table : List (State × StateFunction)) (ppi : Ppi) (call : Call) : Ppi :=
  (ppStateMachine P table call { ppi with lastRcvTime := call.rcvTime }).1

/-! ## Initializing -/

/-- The clock identity of a MAC address, with `ff:fe` in the middle. -/
def clockIdentityOf (mac : BitVec 48) : BitVec 64 :=
  mac.extractLsb' 24 24 ++ (0xFFFE : BitVec 16) ++ mac.extractLsb' 0 24

/-- What `pp_initializing` finds: what the network and the extension return, the
address, the index of the instance, and the options. -/
structure Start where
  init : ℤ
  hook : ℤ
  mac : BitVec 48
  index : ℕ
  announceIntvl : BitVec 8
  syncIntvl : BitVec 8

/-- `pp_initializing` -/
def ppInitializing (start : Start) (ppi : Ppi) : Ppi :=
  if start.init < 0 then { ppi with nextDelay := 1000 }
  else
    let id := clockIdentityOf start.mac
    let ds := { ppi.ds with
      clockIdentity := id
      portIdentity := ⟨id, BitVec.ofNat 16 (1 + start.index)⟩
      logMinDelayReqInterval := P.defaultDelayReqInterval
      logAnnounceInterval := start.announceIntvl
      logSyncInterval := start.syncIntvl
      versionNumber := P.versionPtp }
    if start.hook ≠ 0 then { ppi with ds := ds, nextDelay := 1000 }
    else
      { ppi with
        toSender := msgPackHeader P.toFormat { ppi.toSender with ds := ds }
        nextState := if ppi.role ≠ .master then .listening else .wrLinkOn }

end Instance

end Ptp

end WrCalibration
