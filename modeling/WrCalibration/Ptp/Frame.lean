import WrCalibration.Ptp.Message

/-!
# What a frame says

The buffer is shared, so a frame is made of what its message wrote and of what
was left there. `Headed` is what `msg_pack_header` wrote and no message writes
over; `Memory` is what is left by the messages before: the domain and the
correction. With these two what a receiver reads is known for each message
(`read_pack`), and for any sequence of them (`reads_packs`).
-/

namespace WrCalibration

namespace Ptp

open Octets

/-! ## Frames -/

/-- A frame: the octets of a buffer, up to a length. -/
structure Frame where
  octets : Octets
  length : ℕ

/-- A frame comes in as another: short ones are padded, and what stands behind
them in the buffer is not theirs. -/
structure Frame.ComesAs (f g : Frame) : Prop where
  length_le : f.length ≤ g.length
  octets : ∀ j, j < f.length → g.octets j = f.octets j

theorem Frame.ComesAs.get {f g : Frame} (h : f.ComesAs g) {w offset : ℕ}
    (hoffset : offset + w / 8 ≤ f.length) : get w g.octets offset = get w f.octets offset :=
  get_congr fun _ _ hj => h.octets _ (Nat.lt_of_lt_of_le hj hoffset)

/-! ## Messages -/

/-- A message, with what it is packed from. -/
inductive Message where
  | sync (origTstamp : Timestamp)
  | announce
  | followUp (precOrigTstamp : Timestamp)
  | delayReq (origTstamp : Timestamp)
  | delayResp (hdr : MsgHeader) (rcvTstamp : Timestamp)

/-- What is behind the header. -/
inductive Body where
  | sync (originTimestamp : Timestamp)
  | announce (ann : MsgAnnounce)
  | followUp (preciseOriginTimestamp : Timestamp)
  | delayReq (originTimestamp : Timestamp)
  | delayResp (resp : MsgDelayResp)
  deriving DecidableEq

namespace Message

variable (fmt : Format)

/-- The pack function of the message. -/
def pack (s : Sender) : Message → Sender
  | sync t => msgPackSync fmt s t
  | announce => msgPackAnnounce fmt s
  | followUp t => msgPackFollowUp fmt s t
  | delayReq t => msgPackDelayReq fmt s t
  | delayResp hdr t => msgPackDelayResp fmt s hdr t

/-- The length that is sent. -/
def length : Message → ℕ
  | sync _ => fmt.syncLength
  | announce => announceLen fmt
  | followUp _ => fmt.followUpLength
  | delayReq _ => fmt.delayReqLength
  | delayResp _ _ => fmt.delayRespLength

/-- The frame of the message. -/
def frame (s : Sender) (m : Message) : Frame where
  octets := (m.pack fmt s).txPtp
  length := m.length fmt

/-- Its type. -/
def type : Message → BitVec 8
  | sync _ => ppmSync
  | announce => ppmAnnounce
  | followUp _ => ppmFollowUp
  | delayReq _ => ppmDelayReq
  | delayResp _ _ => ppmDelayResp

/-- Its control field. -/
def control : Message → BitVec 8
  | sync _ => 0x00
  | announce => 0x05
  | followUp _ => 0x02
  | delayReq _ => 0x01
  | delayResp _ _ => 0x03

/-- Its interval. -/
def interval (ds : DataSets) : Message → BitVec 8
  | sync _ => ds.logSyncInterval
  | announce => ds.logAnnounceInterval
  | followUp _ => ds.logSyncInterval
  | delayReq _ => 0x7F
  | delayResp _ _ => ds.logMinDelayReqInterval

/-- What is behind its header. -/
def body (ds : DataSets) : Message → Body
  | sync t => .sync t
  | announce => .announce {
      originTimestamp := ⟨0, 0, 0⟩
      currentUtcOffset := ds.currentUtcOffset
      grandmasterPriority1 := ds.grandmasterPriority1
      clockClass := ds.grandmasterClockClass
      clockAccuracy := ds.grandmasterClockAccuracy
      offsetScaledLogVariance := ds.grandmasterLogVariance
      grandmasterPriority2 := ds.grandmasterPriority2
      grandmasterIdentity := ds.grandmasterIdentity
      stepsRemoved := ds.stepsRemoved
      timeSource := ds.timeSource }
  | followUp t => .followUp t
  | delayReq t => .delayReq t
  | delayResp hdr t => .delayResp ⟨t, hdr.sourcePortIdentity⟩

end Message

/-- The body that the message type calls for. -/
def unpackBody (b : Octets) : Option Body :=
  let messageType := (unpackHeader b).messageType
  if messageType = ppmSync then some (.sync (msgUnpackSync b))
  else if messageType = ppmAnnounce then some (.announce (msgUnpackAnnounce b))
  else if messageType = ppmFollowUp then some (.followUp (msgUnpackFollowUp b))
  else if messageType = ppmDelayReq then some (.delayReq (msgUnpackDelayReq b))
  else if messageType = ppmDelayResp then some (.delayResp (msgUnpackDelayResp b))
  else none

/-! ## What the messages before have left -/

/-- **What is left in the buffer** by the messages before, and the counters. -/
structure Memory where
  domainNumber : BitVec 8
  correctionMsb : BitVec 32
  correctionLsb : BitVec 32
  sentSeq : SentSeq

/-- What is left in the buffer of a sender. -/
def Sender.memory (s : Sender) : Memory where
  domainNumber := get 8 s.txPtp 4
  correctionMsb := get 32 s.txPtp 8
  correctionLsb := get 32 s.txPtp 12
  sentSeq := s.sentSeq

/-- What a message leaves: a response the domain and the correction of its
request, an announcement and a follow-up what they find. -/
def Memory.after (mem : Memory) : Message → Memory
  | .sync _ => { mem with
      correctionMsb := 0, correctionLsb := 0
      sentSeq := { mem.sentSeq with sync := mem.sentSeq.sync + 1 } }
  | .announce => { mem with
      sentSeq := { mem.sentSeq with announce := mem.sentSeq.announce + 1 } }
  | .followUp _ => mem
  | .delayReq _ => { mem with
      correctionMsb := 0, correctionLsb := 0
      sentSeq := { mem.sentSeq with delayReq := mem.sentSeq.delayReq + 1 } }
  | .delayResp hdr _ => { mem with
      domainNumber := hdr.domainNumber
      correctionMsb := hdr.correctionMsb, correctionLsb := hdr.correctionLsb }

/-- The sequence number of a message that left this. -/
def Memory.sequenceId (mem : Memory) : Message → BitVec 16
  | .sync _ => mem.sentSeq.sync
  | .announce => mem.sentSeq.announce
  | .followUp _ => mem.sentSeq.sync
  | .delayReq _ => mem.sentSeq.delayReq
  | .delayResp hdr _ => hdr.sequenceId

/-- The header of a message that left this. -/
def Memory.header (fmt : Format) (ds : DataSets) (flagField : BitVec 16) (mem : Memory)
    (m : Message) : MsgHeader where
  transportSpecific := 0
  messageType := m.type
  versionPTP := ds.versionNumber &&& 0x0F
  messageLength := BitVec.ofNat 16 (m.length fmt)
  domainNumber := mem.domainNumber
  flagField := flagField
  correctionMsb := mem.correctionMsb
  correctionLsb := mem.correctionLsb
  sourcePortIdentity := ds.portIdentity
  sequenceId := mem.sequenceId m
  controlField := m.control
  logMessageInterval := m.interval ds

/-! ## The part of the header -/

/-- **What no message writes over.** -/
structure Headed (flagField : BitVec 16) (s : Sender) : Prop where
  transportSpecific : get 8 s.txPtp 0 >>> 4 = 0
  version : get 8 s.txPtp 1 = s.ds.versionNumber
  flags : get 16 s.txPtp 6 = flagField
  clockIdentity : get 64 s.txPtp 20 = s.ds.portIdentity.clockIdentity
  portNumber : get 16 s.txPtp 28 = s.ds.portIdentity.portNumber

/-- The flags of its frames: the two-step flag, and what was in the buffer. -/
def Sender.flags (fmt : Format) (s : Sender) : BitVec 16 := fmt.twoStepFlag ++ s.txPtp 7

section Pack

variable {fmt : Format} {s : Sender} {flagField : BitVec 16} {m : Message} {mem : Memory}

/-- One octet. -/
theorem get_octet (b : Octets) (j : ℕ) : Octets.get 8 b j = b j := by
  have hlist : (List.range (8 / 8)).map (fun i => (b (j + (8 / 8 - 1 - i))).toNat) =
      [(b j).toNat] := rfl
  unfold Octets.get
  rw [hlist, Nat.ofDigits_singleton, BitVec.ofNat_toNat, BitVec.setWidth_eq]

/-- Two octets. -/
theorem get_two_octets (b : Octets) (j : ℕ) : Octets.get 16 b j = b j ++ b (j + 1) := by
  have hlist : (List.range (16 / 8)).map (fun i => (b (j + (16 / 8 - 1 - i))).toNat) =
      [(b (j + 1)).toNat, (b j).toNat] := rfl
  have hlow := (b (j + 1)).isLt
  have hhigh := (b j).isLt
  refine BitVec.eq_of_toNat_eq ?_
  unfold Octets.get
  rw [hlist, Nat.ofDigits_cons, Nat.ofDigits_singleton, BitVec.toNat_ofNat, BitVec.toNat_append,
    ← Nat.shiftLeft_add_eq_or_of_lt hlow, Nat.shiftLeft_eq]
  omega

theorem get_setType_zero (b : Octets) (t : BitVec 8) :
    get 8 (setType b t) 0 = get 8 b 0 &&& 0xF0 ||| t := by
  unfold setType
  rw [get_put (by decide), ← get_octet (put b 0 _) 0, get_put (by decide), get_octet]

theorem get_setType_of_pos {w offset : ℕ} (h : 1 ≤ offset) (b : Octets) (t : BitVec 8) :
    get w (setType b t) offset = get w b offset := by
  unfold setType
  rw [get_put_of_disjoint (by omega), get_put_of_disjoint (by omega)]

/-- The type is in the lower nibble, and the upper one stays. -/
theorem nibbles_setType (m : Message) (x : BitVec 8) :
    (x &&& 0xF0 ||| m.type) &&& 0x0F = m.type ∧ (x &&& 0xF0 ||| m.type) >>> 4 = x >>> 4 := by
  have hall : ∀ t ∈ [ppmSync, ppmAnnounce, ppmFollowUp, ppmDelayReq, ppmDelayResp],
      ∀ x : BitVec 8, (x &&& 0xF0 ||| t) &&& 0x0F = t ∧ (x &&& 0xF0 ||| t) >>> 4 = x >>> 4 := by
    decide +kernel
  refine hall m.type ?_ x
  cases m <;> simp [Message.type]

theorem announceLength_le (fmt : Format) : fmt.announceLength ≤ announceLen fmt := by
  unfold announceLen
  cases hhook : fmt.packAnnounce with
  | none => exact Nat.le_refl _
  | some hook => exact fmt.le_packAnnounce hook hhook

/-- Every message covers the header. -/
theorem header_le_length (fmt : Format) (m : Message) : fmt.headerLength ≤ m.length fmt := by
  obtain ⟨hsync, hannounce, hfollowUp, hdelayReq, hdelayResp⟩ := fmt.header_le
  cases m
  · exact hsync
  · exact hannounce.trans (announceLength_le fmt)
  · exact hfollowUp
  · exact hdelayReq
  · exact hdelayResp

/-! The extension leaves the fields of an announcement, but for the length. -/

theorem txPtp_msgPackAnnounce (s : Sender) {j : ℕ} (h : j < 64) (h2 : j ≠ 2) (h3 : j ≠ 3) :
    (msgPackAnnounce fmt s).txPtp j = (announceFields fmt s).txPtp j := by
  unfold msgPackAnnounce
  cases fmt.packAnnounce with
  | none => rfl
  | some hook => exact hook.pack_of_lt _ j h h2 h3

theorem get_msgPackAnnounce (s : Sender) {w offset : ℕ}
    (h : offset + w / 8 ≤ 2 ∨ 4 ≤ offset ∧ offset + w / 8 ≤ 64) :
    get w (msgPackAnnounce fmt s).txPtp offset = get w (announceFields fmt s).txPtp offset :=
  get_congr fun j hj hj' => txPtp_msgPackAnnounce s (by omega) (by omega) (by omega)

theorem get_length_msgPackAnnounce (s : Sender) :
    get 16 (msgPackAnnounce fmt s).txPtp 2 = BitVec.ofNat 16 (announceLen fmt) := by
  unfold msgPackAnnounce announceLen
  cases fmt.packAnnounce with
  | none => simp (disch := decide) only [announceFields, get_put_of_disjoint, get_put]
  | some hook => exact hook.get_length _

@[simp] theorem ds_msgPackAnnounce (s : Sender) : (msgPackAnnounce fmt s).ds = s.ds := by
  unfold msgPackAnnounce
  cases fmt.packAnnounce with
  | none => rfl
  | some hook => rfl

@[simp] theorem sentSeq_msgPackAnnounce (s : Sender) : (msgPackAnnounce fmt s).sentSeq =
    { s.sentSeq with announce := s.sentSeq.announce + 1 } := by
  unfold msgPackAnnounce
  cases fmt.packAnnounce with
  | none => rfl
  | some hook => rfl

/-- The first octet of a message, -/
theorem get_pack_zero (s : Sender) (m : Message) :
    get 8 (m.pack fmt s).txPtp 0 = get 8 s.txPtp 0 &&& 0xF0 ||| m.type := by
  rw [← get_setType_zero]
  cases m <;>
    simp (disch := decide) only [Message.pack, Message.type, msgPackSync, get_msgPackAnnounce,
      announceFields, msgPackFollowUp, msgPackDelayReq, msgPackDelayResp, putTimestamp,
      get_put_of_disjoint]

/-- and those that it leaves. -/
theorem pack_of_untouched (s : Sender) (m : Message) {j : ℕ}
    (h : j = 1 ∨ 5 ≤ j ∧ j < 8 ∨ 16 ≤ j ∧ j < 30) : (m.pack fmt s).txPtp j = s.txPtp j := by
  cases m <;>
    simp (disch := omega) only [Message.pack, msgPackSync, txPtp_msgPackAnnounce, announceFields,
      msgPackFollowUp, msgPackDelayReq, msgPackDelayResp, setType, putTimestamp, put_of_lt]

theorem headed_msgPackHeader (s : Sender) :
    Headed (s.flags fmt) (msgPackHeader fmt s) where
  transportSpecific := by
    simp (disch := decide) only [msgPackHeader, get_put_of_disjoint, get_put]
    rfl
  version := by simp (disch := decide) only [msgPackHeader, get_put_of_disjoint, get_put]
  flags := by
    have htwo : (msgPackHeader fmt s).txPtp 6 = fmt.twoStepFlag := by
      rw [← get_octet (msgPackHeader fmt s).txPtp 6]
      simp (disch := decide) only [msgPackHeader, get_put_of_disjoint, get_put]
    have hrest : (msgPackHeader fmt s).txPtp 7 = s.txPtp 7 := by
      simp (disch := omega) only [msgPackHeader, put_of_lt]
    rw [get_two_octets, htwo, hrest, Sender.flags]
  clockIdentity := by simp (disch := decide) only [msgPackHeader, get_put_of_disjoint, get_put]
  portNumber := by simp (disch := decide) only [msgPackHeader, get_put_of_disjoint, get_put]

@[simp] theorem ds_pack (s : Sender) (m : Message) : (m.pack fmt s).ds = s.ds := by
  cases m with
  | announce => exact ds_msgPackAnnounce s
  | _ => rfl

theorem Headed.pack (h : Headed flagField s) (m : Message) : Headed flagField (m.pack fmt s) where
  transportSpecific := by
    rw [get_pack_zero, (nibbles_setType m _).2, h.transportSpecific]
  version := by
    rw [ds_pack, ← h.version]
    exact get_congr fun j _ _ => pack_of_untouched s m (by omega)
  flags := by
    rw [← h.flags]
    exact get_congr fun j _ _ => pack_of_untouched s m (by omega)
  clockIdentity := by
    rw [ds_pack, ← h.clockIdentity]
    exact get_congr fun j _ _ => pack_of_untouched s m (by omega)
  portNumber := by
    rw [ds_pack, ← h.portNumber]
    exact get_congr fun j _ _ => pack_of_untouched s m (by omega)

/-- A message leaves what it is said to leave. -/
theorem memory_pack (s : Sender) (m : Message) :
    (m.pack fmt s).memory = s.memory.after m := by
  cases m <;>
    simp (disch := decide) only [Sender.memory, Memory.after, Message.pack, msgPackSync,
      get_msgPackAnnounce, sentSeq_msgPackAnnounce, announceFields, msgPackFollowUp,
      msgPackDelayReq, msgPackDelayResp, putTimestamp, get_put_of_disjoint, get_put, get_put_zero,
      get_setType_of_pos]

/-- The fields of the header that each message writes. -/
theorem fields_pack (s : Sender) (m : Message) :
    get 16 (m.pack fmt s).txPtp 2 = BitVec.ofNat 16 (m.length fmt) ∧
      get 16 (m.pack fmt s).txPtp 30 = (s.memory.after m).sequenceId m ∧
      get 8 (m.pack fmt s).txPtp 32 = m.control ∧
      get 8 (m.pack fmt s).txPtp 33 = m.interval s.ds := by
  cases m <;>
    simp (disch := decide) only [Sender.memory, Memory.after, Memory.sequenceId, Message.pack,
      Message.length, Message.control, Message.interval, msgPackSync, get_length_msgPackAnnounce,
      get_msgPackAnnounce, announceFields, msgPackFollowUp, msgPackDelayReq, msgPackDelayResp,
      putTimestamp, get_put_of_disjoint, get_put, and_self]

@[simp] theorem getTimestamp_putTimestamp (b : Octets) (t : Timestamp) :
    getTimestamp (putTimestamp b t) = t := by
  simp (disch := decide) only [getTimestamp, putTimestamp, get_put_of_disjoint, get_put]

theorem unpackAnnounce_pack (s : Sender) :
    Body.announce (msgUnpackAnnounce (msgPackAnnounce fmt s).txPtp) =
      Message.announce.body s.ds := by
  simp (disch := decide) only [msgUnpackAnnounce, get_msgPackAnnounce, announceFields,
    getTimestamp, Message.body, get_put_of_disjoint, get_put, get_put_zero]

theorem unpackDelayResp_pack (s : Sender) (hdr : MsgHeader) (t : Timestamp) :
    msgUnpackDelayResp (msgPackDelayResp fmt s hdr t).txPtp = ⟨t, hdr.sourcePortIdentity⟩ := by
  simp (disch := decide) only [msgUnpackDelayResp, msgPackDelayResp, getTimestamp, putTimestamp,
    get_put_of_disjoint, get_put]

/-- **The body is read as it was packed.** -/
theorem unpackBody_pack (s : Sender) (m : Message) :
    unpackBody (m.pack fmt s).txPtp = some (m.body s.ds) := by
  have htype : (unpackHeader (m.pack fmt s).txPtp).messageType = m.type := by
    rw [unpackHeader, get_pack_zero, (nibbles_setType m _).1]
  unfold unpackBody
  rw [htype]
  cases m with
  | sync t => exact congrArg (some ∘ Body.sync) (getTimestamp_putTimestamp _ t)
  | announce => exact congrArg some (unpackAnnounce_pack s)
  | followUp t => exact congrArg (some ∘ Body.followUp) (getTimestamp_putTimestamp _ t)
  | delayReq t => exact congrArg (some ∘ Body.delayReq) (getTimestamp_putTimestamp _ t)
  | delayResp hdr t => exact congrArg (some ∘ Body.delayResp) (unpackDelayResp_pack s hdr t)

/-- **The header is what the sender is, what the message says, and what was
left.** -/
theorem unpackHeader_pack (h : Headed flagField s) (m : Message) :
    unpackHeader (m.pack fmt s).txPtp =
      (s.memory.after m).header fmt s.ds flagField m := by
  have hafter : Headed flagField (m.pack fmt s) := h.pack m
  have hmemory : (m.pack fmt s).memory = s.memory.after m := memory_pack s m
  obtain ⟨hlength, hsequence, hcontrol, hinterval⟩ : _ ∧ _ ∧ _ ∧ _ := fields_pack s m
  have htype : get 8 (m.pack fmt s).txPtp 0 &&& 0x0F = m.type := by
    rw [get_pack_zero, (nibbles_setType m _).1]
  rw [unpackHeader, hafter.transportSpecific, hafter.version, hafter.flags, hafter.clockIdentity,
    hafter.portNumber, ds_pack, htype, hlength, hsequence, hcontrol, hinterval, ← hmemory]
  rfl

end Pack

/-! ## On the line -/

section Congr

variable {b b' : Octets}

theorem unpackHeader_congr (h : ∀ j < 34, b j = b' j) : unpackHeader b = unpackHeader b' := by
  have hget : ∀ w offset, offset + w / 8 ≤ 34 → get w b offset = get w b' offset :=
    fun w offset hle => get_congr fun j _ hj => h j (by omega)
  simp (disch := decide) only [unpackHeader, hget]

theorem getTimestamp_congr (h : ∀ j < 44, b j = b' j) : getTimestamp b = getTimestamp b' := by
  have hget : ∀ w offset, offset + w / 8 ≤ 44 → get w b offset = get w b' offset :=
    fun w offset hle => get_congr fun j _ hj => h j (by omega)
  simp (disch := decide) only [getTimestamp, hget]

theorem msgUnpackAnnounce_congr (h : ∀ j < 64, b j = b' j) :
    msgUnpackAnnounce b = msgUnpackAnnounce b' := by
  have hget : ∀ w offset, offset + w / 8 ≤ 64 → get w b offset = get w b' offset :=
    fun w offset hle => get_congr fun j _ hj => h j (by omega)
  simp (disch := decide) only [msgUnpackAnnounce, getTimestamp, hget]

theorem msgUnpackDelayResp_congr (h : ∀ j < 54, b j = b' j) :
    msgUnpackDelayResp b = msgUnpackDelayResp b' := by
  have hget : ∀ w offset, offset + w / 8 ≤ 54 → get w b offset = get w b' offset :=
    fun w offset hle => get_congr fun j _ hj => h j (by omega)
  simp (disch := decide) only [msgUnpackDelayResp, getTimestamp, hget]

end Congr

/-- What a receiver reads in a frame. -/
def Frame.read (f : Frame) : MsgHeader × Option Body := (unpackHeader f.octets, unpackBody f.octets)

section Line

variable {fmt : Format} {s : Sender} {flagField : BitVec 16} {g : Frame}

theorem unpackHeader_comesAs (m : Message) (h : (m.frame fmt s).ComesAs g) :
    unpackHeader g.octets = unpackHeader (m.pack fmt s).txPtp :=
  unpackHeader_congr fun j hj =>
    h.octets j (hj.trans_le (fmt.le_header.trans (header_le_length fmt m)))

theorem unpackBody_comesAs (m : Message) (h : (m.frame fmt s).ComesAs g) :
    unpackBody g.octets = unpackBody (m.pack fmt s).txPtp := by
  have htype : (unpackHeader (m.pack fmt s).txPtp).messageType = m.type := by
    rw [unpackHeader, get_pack_zero, (nibbles_setType m _).1]
  unfold unpackBody
  rw [unpackHeader_comesAs m h, htype]
  -- each body ends within the length of its message
  cases m with
  | sync t =>
    exact congrArg (some ∘ Body.sync)
      (getTimestamp_congr fun j hj => h.octets j (hj.trans_le fmt.le_sync))
  | announce =>
    exact congrArg (some ∘ Body.announce)
      (msgUnpackAnnounce_congr fun j hj =>
        h.octets j (hj.trans_le (fmt.le_announce.trans (announceLength_le fmt))))
  | followUp t =>
    exact congrArg (some ∘ Body.followUp)
      (getTimestamp_congr fun j hj => h.octets j (hj.trans_le fmt.le_followUp))
  | delayReq t =>
    exact congrArg (some ∘ Body.delayReq)
      (getTimestamp_congr fun j hj => h.octets j (hj.trans_le fmt.le_delayReq))
  | delayResp hdr t =>
    exact congrArg (some ∘ Body.delayResp)
      (msgUnpackDelayResp_congr fun j hj => h.octets j (hj.trans_le fmt.le_delayResp))

/-- What a message says that finds this in the buffer. -/
def Memory.tells (fmt : Format) (ds : DataSets) (flagField : BitVec 16) (mem : Memory)
    (m : Message) : MsgHeader × Option Body :=
  ((mem.after m).header fmt ds flagField m, some (m.body ds))

/-- **A frame says its message.** -/
theorem read_comesAs (hheaded : Headed flagField s) (m : Message)
    (h : (m.frame fmt s).ComesAs g) : g.read = s.memory.tells fmt s.ds flagField m := by
  rw [Frame.read, unpackHeader_comesAs m h, unpackBody_comesAs m h, unpackHeader_pack hheaded,
    unpackBody_pack, Memory.tells]

/-! ### Messages one after another -/

/-- The frames of messages that are packed one after another. -/
def frames (fmt : Format) : Sender → List Message → List Frame
  | _, [] => []
  | s, m :: ms => m.frame fmt s :: frames fmt (m.pack fmt s) ms

/-- What they say, as far as the sender is this one. -/
def Memory.tellsAll (fmt : Format) (ds : DataSets) (flagField : BitVec 16) :
    Memory → List Message → List (MsgHeader × Option Body)
  | _, [] => []
  | mem, m :: ms => mem.tells fmt ds flagField m :: (mem.after m).tellsAll fmt ds flagField ms

theorem read_frames_of_headed (hheaded : Headed flagField s) {ms : List Message} {gs : List Frame}
    (h : List.Forall₂ Frame.ComesAs (frames fmt s ms) gs) :
    gs.map Frame.read = s.memory.tellsAll fmt s.ds flagField ms := by
  induction ms generalizing s gs with
  | nil =>
    cases h
    rfl
  | cons m ms ih =>
    obtain ⟨g, gs, hg, hgs, rfl⟩ := List.forall₂_cons_left_iff.1 h
    rw [List.map_cons, read_comesAs hheaded m hg, ih (hheaded.pack m) hgs, memory_pack, ds_pack,
      Memory.tellsAll]

/-- What is in the buffer after `msg_pack_header`. -/
theorem memory_msgPackHeader (s : Sender) : (msgPackHeader fmt s).memory =
    { domainNumber := s.ds.domainNumber, correctionMsb := 0, correctionLsb := 0
      sentSeq := s.sentSeq } := by
  simp (disch := decide) only [Sender.memory, msgPackHeader, get_put_of_disjoint, get_put,
    get_put_zero]

/-- **Any messages are read as they were meant.** Once the header is packed,
whatever was in the buffer before, the frames of any messages, packed one after
another, say at any receiver what the messages are, with the counters of the
sender and its identity. What was in the buffer is left in the second octet of
the flags only, and of what was sent before the domain of the last response and
the last correction are left. -/
theorem read_frames (s : Sender) {ms : List Message} {gs : List Frame}
    (h : List.Forall₂ Frame.ComesAs (frames fmt (msgPackHeader fmt s) ms) gs) :
    gs.map Frame.read =
      Memory.tellsAll fmt s.ds (s.flags fmt)
        { domainNumber := s.ds.domainNumber, correctionMsb := 0, correctionLsb := 0
          sentSeq := s.sentSeq } ms := by
  rw [read_frames_of_headed (headed_msgPackHeader s) h, memory_msgPackHeader]
  rfl

/-! A response, and a Sync behind it. -/

theorem Frame.ComesAs.refl (f : Frame) : f.ComesAs f := ⟨Nat.le_refl _, fun _ _ => rfl⟩

/-- The lengths of the standard. -/
def sampleFormat : Format where
  headerLength := 34
  syncLength := 44
  announceLength := 64
  followUpLength := 44
  delayReqLength := 44
  delayRespLength := 54
  twoStepFlag := 0x02
  packAnnounce := none
  header_le := by decide
  le_header := by decide
  le_sync := by decide
  le_announce := by decide
  le_followUp := by decide
  le_delayReq := by decide
  le_delayResp := by decide
  le_packAnnounce := nofun

/-- A port in domain 0. -/
def sampleDataSets (clockIdentity : BitVec 64) : DataSets where
  portIdentity := ⟨clockIdentity, 1⟩
  logMinDelayReqInterval := 0
  logAnnounceInterval := 1
  logSyncInterval := 0
  versionNumber := 2
  domainNumber := 0
  clockIdentity := clockIdentity
  slaveOnly := false
  parentPortIdentity := ⟨0, 0⟩
  grandmasterPriority1 := 128
  grandmasterClockClass := 187
  grandmasterClockAccuracy := 0xFE
  grandmasterLogVariance := 0xFFFF
  grandmasterPriority2 := 128
  grandmasterIdentity := clockIdentity
  stepsRemoved := 0
  currentUtcOffset := 37
  timeSource := 0xA0

/-- A sender with nothing sent. -/
def sampleSender (clockIdentity : BitVec 64) : Sender where
  txPtp _ := 0
  sentSeq := ⟨0, 0, 0⟩
  ds := sampleDataSets clockIdentity

/-- A request from domain 7. -/
def sampleRequest : MsgHeader where
  transportSpecific := 0
  messageType := ppmDelayReq
  versionPTP := 2
  messageLength := 44
  domainNumber := 7
  flagField := 0
  correctionMsb := 0
  correctionLsb := 5
  sourcePortIdentity := ⟨0x0200, 1⟩
  sequenceId := 300
  controlField := 1
  logMessageInterval := 0x7F

theorem read_frames_sample :
    ((frames sampleFormat (msgPackHeader sampleFormat (sampleSender 0x0100))
      [.delayResp sampleRequest ⟨0, 10, 20⟩, .sync ⟨0, 11, 0⟩]).map Frame.read).map
        (fun r => (r.1.sequenceId, r.1.domainNumber, r.1.correctionLsb)) =
      [(300, 7, 5), (1, 7, 0)] := by
  rw [read_frames (sampleSender 0x0100) (List.forall₂_same.2 fun f _ => Frame.ComesAs.refl f)]
  rfl

end Line

end Ptp

end WrCalibration
