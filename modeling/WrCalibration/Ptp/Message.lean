import WrCalibration.Common.Octets
import WrCalibration.Timing.TimeInternal

/-!
# The messages of the node software

One buffer serves all messages an instance sends: `msg_pack_header` fills it
once, and each message writes over the fields that are its own. What it does
not write is left from the messages before it.
-/

namespace WrCalibration

namespace Ptp

open Octets Timing

/-! ## Data -/

/-- `Timestamp` -/
structure Timestamp where
  secondsMsb : BitVec 16
  secondsLsb : BitVec 32
  nanosecondsField : BitVec 32
  deriving DecidableEq

/-- `PortIdentity` -/
structure PortIdentity where
  clockIdentity : BitVec 64
  portNumber : BitVec 16
  deriving DecidableEq

/-- `MsgHeader` -/
structure MsgHeader where
  transportSpecific : BitVec 8
  messageType : BitVec 8
  versionPTP : BitVec 8
  messageLength : BitVec 16
  domainNumber : BitVec 8
  flagField : BitVec 16
  correctionMsb : BitVec 32
  correctionLsb : BitVec 32
  sourcePortIdentity : PortIdentity
  sequenceId : BitVec 16
  controlField : BitVec 8
  logMessageInterval : BitVec 8
  deriving DecidableEq

/-- `MsgAnnounce` -/
structure MsgAnnounce where
  originTimestamp : Timestamp
  currentUtcOffset : BitVec 16
  grandmasterPriority1 : BitVec 8
  clockClass : BitVec 8
  clockAccuracy : BitVec 8
  offsetScaledLogVariance : BitVec 16
  grandmasterPriority2 : BitVec 8
  grandmasterIdentity : BitVec 64
  stepsRemoved : BitVec 16
  timeSource : BitVec 8
  deriving DecidableEq

/-- `MsgDelayResp` -/
structure MsgDelayResp where
  receiveTimestamp : Timestamp
  requestingPortIdentity : PortIdentity
  deriving DecidableEq

/-- The message types, as the nibbles that are packed. -/
def ppmSync : BitVec 8 := 0x00

@[inherit_doc ppmSync]
def ppmDelayReq : BitVec 8 := 0x01

@[inherit_doc ppmSync]
def ppmFollowUp : BitVec 8 := 0x08

@[inherit_doc ppmSync]
def ppmDelayResp : BitVec 8 := 0x09

@[inherit_doc ppmSync]
def ppmAnnounce : BitVec 8 := 0x0B

/-- `struct DSPort`, and what the messages read of the other data sets. -/
structure DataSets where
  portIdentity : PortIdentity
  logMinDelayReqInterval : BitVec 8
  logAnnounceInterval : BitVec 8
  logSyncInterval : BitVec 8
  versionNumber : BitVec 8
  /-- `DSDEF` -/
  domainNumber : BitVec 8
  clockIdentity : BitVec 64
  slaveOnly : Bool
  /-- `DSPAR` -/
  parentPortIdentity : PortIdentity
  grandmasterPriority1 : BitVec 8
  grandmasterClockClass : BitVec 8
  grandmasterClockAccuracy : BitVec 8
  grandmasterLogVariance : BitVec 16
  grandmasterPriority2 : BitVec 8
  grandmasterIdentity : BitVec 64
  /-- `DSCUR` and `DSPRO` -/
  stepsRemoved : BitVec 16
  currentUtcOffset : BitVec 16
  timeSource : BitVec 8

/-- `sent_seq` -/
structure SentSeq where
  sync : BitVec 16
  announce : BitVec 16
  delayReq : BitVec 16

/-- **A sender**: the transmit buffer `tx_ptp`, the sequence counters and the
data sets. -/
structure Sender where
  txPtp : Octets
  sentSeq : SentSeq
  ds : DataSets

/-- `pp_hooks.pack_announce`: what an extension makes of an announcement, and the
length it returns, which it puts into the header. Else it writes behind the
fields only. -/
structure AnnounceHook where
  pack : Sender → Octets
  length : ℕ
  pack_of_lt : ∀ s j, j < 64 → j ≠ 2 → j ≠ 3 → pack s j = s.txPtp j
  get_length : ∀ s, get 16 (pack s) 2 = BitVec.ofNat 16 length

/-- What `ppsi.h` gives to the messages: their lengths, each long enough for
the fields that are written, the two-step flag, and the hook of an extension. -/
structure Format where
  headerLength : ℕ
  syncLength : ℕ
  announceLength : ℕ
  followUpLength : ℕ
  delayReqLength : ℕ
  delayRespLength : ℕ
  twoStepFlag : BitVec 8
  packAnnounce : Option AnnounceHook
  header_le : headerLength ≤ syncLength ∧ headerLength ≤ announceLength ∧
    headerLength ≤ followUpLength ∧ headerLength ≤ delayReqLength ∧ headerLength ≤ delayRespLength
  le_header : 34 ≤ headerLength
  le_sync : 44 ≤ syncLength
  le_announce : 64 ≤ announceLength
  le_followUp : 44 ≤ followUpLength
  le_delayReq : 44 ≤ delayReqLength
  le_delayResp : 54 ≤ delayRespLength
  le_packAnnounce : ∀ hook ∈ packAnnounce, announceLength ≤ hook.length

/-! ## Packing -/

/-- Writes the message type in its nibble. -/
def setType (b : Octets) (messageType : BitVec 8) : Octets :=
  let b := put b 0 (b 0 &&& 0xF0)
  put b 0 (b 0 ||| messageType)

/-- Writes the timestamp behind the header. -/
def putTimestamp (b : Octets) (t : Timestamp) : Octets :=
  put (put (put b 34 t.secondsMsb) 36 t.secondsLsb) 40 t.nanosecondsField

section Pack

variable (fmt : Format)

/-- `msg_pack_header` -/
def msgPackHeader (s : Sender) : Sender :=
  let b := put s.txPtp 0 (0 : BitVec 8)
  let b := put b 1 s.ds.versionNumber
  let b := put b 4 s.ds.domainNumber
  let b := put b 6 fmt.twoStepFlag
  let b := put b 8 (0 : BitVec 64)
  let b := put b 20 s.ds.portIdentity.clockIdentity
  let b := put b 28 s.ds.portIdentity.portNumber
  { s with txPtp := put b 33 (0x7F : BitVec 8) }

/-- `msg_pack_sync` -/
def msgPackSync (s : Sender) (origTstamp : Timestamp) : Sender :=
  let b := setType s.txPtp ppmSync
  let b := put b 2 (BitVec.ofNat 16 fmt.syncLength)
  let seq := s.sentSeq.sync + 1
  let b := put b 30 seq
  let b := put b 32 (0x00 : BitVec 8)
  let b := put b 33 s.ds.logSyncInterval
  let b := put b 8 (0 : BitVec 64)
  { s with txPtp := putTimestamp b origTstamp, sentSeq := { s.sentSeq with sync := seq } }

/-- `msg_pack_announce`, up to the extension. -/
def announceFields (s : Sender) : Sender :=
  let b := setType s.txPtp ppmAnnounce
  let b := put b 2 (BitVec.ofNat 16 fmt.announceLength)
  let seq := s.sentSeq.announce + 1
  let b := put b 30 seq
  let b := put b 32 (0x05 : BitVec 8)
  let b := put b 33 s.ds.logAnnounceInterval
  let b := put b 34 (0 : BitVec 80)
  let b := put b 44 s.ds.currentUtcOffset
  let b := put b 47 s.ds.grandmasterPriority1
  let b := put b 48 s.ds.grandmasterClockClass
  let b := put b 49 s.ds.grandmasterClockAccuracy
  let b := put b 50 s.ds.grandmasterLogVariance
  let b := put b 52 s.ds.grandmasterPriority2
  let b := put b 53 s.ds.grandmasterIdentity
  let b := put b 61 s.ds.stepsRemoved
  { s with
    txPtp := put b 63 s.ds.timeSource
    sentSeq := { s.sentSeq with announce := seq } }

/-- `msg_pack_announce` -/
def msgPackAnnounce (s : Sender) : Sender :=
  let s := announceFields fmt s
  match fmt.packAnnounce with
  | some hook => { s with txPtp := hook.pack s }
  | none => s

/-- What `msg_pack_announce` returns. -/
def announceLen : ℕ :=
  match fmt.packAnnounce with
  | some hook => hook.length
  | none => fmt.announceLength

/-- `msg_pack_follow_up`: the sequence number is that of the last Sync. -/
def msgPackFollowUp (s : Sender) (precOrigTstamp : Timestamp) : Sender :=
  let b := setType s.txPtp ppmFollowUp
  let b := put b 2 (BitVec.ofNat 16 fmt.followUpLength)
  let b := put b 30 s.sentSeq.sync
  let b := put b 32 (0x02 : BitVec 8)
  let b := put b 33 s.ds.logSyncInterval
  { s with txPtp := putTimestamp b precOrigTstamp }

/-- `msg_pack_delay_req` -/
def msgPackDelayReq (s : Sender) (origTstamp : Timestamp) : Sender :=
  let b := setType s.txPtp ppmDelayReq
  let b := put b 2 (BitVec.ofNat 16 fmt.delayReqLength)
  let seq := s.sentSeq.delayReq + 1
  let b := put b 30 seq
  let b := put b 32 (0x01 : BitVec 8)
  let b := put b 33 (0x7F : BitVec 8)
  let b := put b 8 (0 : BitVec 64)
  { s with txPtp := putTimestamp b origTstamp, sentSeq := { s.sentSeq with delayReq := seq } }

/-- `msg_pack_delay_resp`: what identifies the request is copied, and its
domain. -/
def msgPackDelayResp (s : Sender) (hdr : MsgHeader) (rcvTstamp : Timestamp) : Sender :=
  let b := setType s.txPtp ppmDelayResp
  let b := put b 2 (BitVec.ofNat 16 fmt.delayRespLength)
  let b := put b 4 hdr.domainNumber
  let b := put b 8 (0 : BitVec 64)
  let b := put b 8 hdr.correctionMsb
  let b := put b 12 hdr.correctionLsb
  let b := put b 30 hdr.sequenceId
  let b := put b 32 (0x03 : BitVec 8)
  let b := put b 33 s.ds.logMinDelayReqInterval
  let b := putTimestamp b rcvTstamp
  let b := put b 44 hdr.sourcePortIdentity.clockIdentity
  { s with txPtp := put b 52 hdr.sourcePortIdentity.portNumber }

end Pack

/-! ## Unpacking -/

/-- What `msg_unpack_header` stores in `received_ptp_header`. -/
def unpackHeader (b : Octets) : MsgHeader where
  transportSpecific := get 8 b 0 >>> 4
  messageType := get 8 b 0 &&& 0x0F
  versionPTP := get 8 b 1 &&& 0x0F
  messageLength := get 16 b 2
  domainNumber := get 8 b 4
  flagField := get 16 b 6
  correctionMsb := get 32 b 8
  correctionLsb := get 32 b 12
  sourcePortIdentity := { clockIdentity := get 64 b 20, portNumber := get 16 b 28 }
  sequenceId := get 16 b 30
  controlField := get 8 b 32
  logMessageInterval := get 8 b 33

/-- The timestamp behind the header. -/
def getTimestamp (b : Octets) : Timestamp where
  secondsMsb := get 16 b 34
  secondsLsb := get 32 b 36
  nanosecondsField := get 32 b 40

/-- `msg_unpack_sync` -/
def msgUnpackSync (b : Octets) : Timestamp := getTimestamp b

/-- `msg_unpack_follow_up` -/
def msgUnpackFollowUp (b : Octets) : Timestamp := getTimestamp b

/-- `msg_unpack_delay_req` -/
def msgUnpackDelayReq (b : Octets) : Timestamp := getTimestamp b

/-- `msg_unpack_announce`; what the hook of an extension stores is its own. -/
def msgUnpackAnnounce (b : Octets) : MsgAnnounce where
  originTimestamp := getTimestamp b
  currentUtcOffset := get 16 b 44
  grandmasterPriority1 := get 8 b 47
  clockClass := get 8 b 48
  clockAccuracy := get 8 b 49
  offsetScaledLogVariance := get 16 b 50
  grandmasterPriority2 := get 8 b 52
  grandmasterIdentity := get 64 b 53
  stepsRemoved := get 16 b 61
  timeSource := get 8 b 63

/-- `msg_unpack_delay_resp` -/
def msgUnpackDelayResp (b : Octets) : MsgDelayResp where
  receiveTimestamp := getTimestamp b
  requestingPortIdentity := { clockIdentity := get 64 b 44, portNumber := get 16 b 52 }

end Ptp

end WrCalibration
