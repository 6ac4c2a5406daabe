import WrCalibration.Ptp.Exchange
import WrCalibration.Timing.TimestampLog

/-!
# A calibration run

A master whose Syncs come back to it, one before the next is due, prints a line
for each: the time of the send and the time of the receive. What comes back has
the identity of the node, so it is never answered, and the lines are in step
with the Syncs (`runs_events`); the reader of the log finds all of them
(`calibrates`).
-/

namespace WrCalibration

namespace Ptp

open Octets Timing Python

variable {P : Ppsi} {w : World} {table : List (State × StateFunction)} {ppi : Ppi}
  {calls : List (Call × ℤ)} {out : Bool} {n : ℕ}

/-! ## What is printed -/

/-- What a call prints, with the bitslide that is found then: the timestamp of a
packet, and those of the frames that are sent. -/
def callEvents (call : Call) (bitslide : ℤ) (ppi ppi' : Ppi) : List Event :=
  (if 0 < call.pkt.length then [Event.recv call.rcvTime bitslide] else []) ++
    (ppi'.sent.drop ppi.sent.length).map fun x => Event.send x.result.wrTs

/-- What the calls of a run print. -/
def events (P : Ppsi) (table : List (State × StateFunction)) : Ppi → List (Call × ℤ) → List Event
  | _, [] => []
  | ppi, (call, bitslide) :: calls =>
    let ppi' := activate P table ppi call
    callEvents call bitslide ppi ppi' ++ events P table ppi' calls

/-- **A run with a loop**: with no Sync out one may be due, with one out the frame
that was sent last comes in; in between there are calls without either. -/
inductive Looped (P : Ppsi) (table : List (State × StateFunction)) :
    Ppi → Bool → List (Call × ℤ) → Prop where
  | done (ppi : Ppi) (out : Bool) : Looped P table ppi out []
  | idle {ppi : Ppi} {out : Bool} {call : Call} {calls : List (Call × ℤ)} (bitslide : ℤ)
      (hcalm : call.Calm P) (hpkt : call.pkt.length = 0) (hdue : call.syncDue = false)
      (h : Looped P table (activate P table ppi call) out calls) :
      Looped P table ppi out ((call, bitslide) :: calls)
  | due {ppi : Ppi} {call : Call} {calls : List (Call × ℤ)} (bitslide : ℤ)
      (hcalm : call.Calm P) (hpkt : call.pkt.length = 0) (hdue : call.syncDue = true)
      (h : Looped P table (activate P table ppi call) true calls) :
      Looped P table ppi false ((call, bitslide) :: calls)
  | back {ppi : Ppi} {call : Call} {calls : List (Call × ℤ)} (bitslide : ℤ)
      (hcalm : call.Calm P)
      (hpkt : ∃ x, ppi.sent.getLast? = some x ∧ x.frame.ComesAs call.pkt)
      (hdue : call.syncDue = false)
      (h : Looped P table (activate P table ppi call) false calls) :
      Looped P table ppi true ((call, bitslide) :: calls)

/-- **What is measured**: for each packet that comes in the time of the Sync that
was sent as the same one in turn, and its own. -/
def measured (w : World) : ℕ → List (Call × ℤ) → List (TimeInternal × TimeInternal)
  | _, [] => []
  | n, (call, bitslide) :: calls =>
    if call.pkt.length = 0 then measured w n calls
    else ((Event.send (w.result n).wrTs).stamp, (Event.recv call.rcvTime bitslide).stamp) ::
      measured w (n + 1) calls

/-! ## What comes back is not answered -/

/-- The frames of an instance have its identity. -/
structure Owned (ppi : Ppi) : Prop where
  headed : ∃ flagField, Headed flagField ppi.toSender
  own : ∀ x ∈ ppi.sent, 34 ≤ x.frame.length ∧
    (unpackHeader x.frame.octets).sourcePortIdentity = ppi.ds.portIdentity

section Owned

variable {ms : List Message} {ppi' : Ppi} {call : Call}

theorem Headed.packs {fmt : Format} {flagField : BitVec 16} {s : Sender}
    (h : Headed flagField s) (ms : List Message) : Headed flagField (s.packs fmt ms) := by
  induction ms generalizing s with
  | nil => exact h
  | cons m ms ih => exact ih (h.pack m)

theorem Owned.emits (h : Owned ppi) (hemits : Emits P w ms ppi ppi') : Owned ppi' := by
  obtain ⟨flagField, hheaded⟩ := h.headed
  refine ⟨⟨flagField, hemits.toSender ▸ hheaded.packs ms⟩, fun x hx => ?_⟩
  rw [hemits.ds]
  rw [hemits.sent] at hx
  rcases List.mem_append.1 hx with hx | hx
  · exact h.own x hx
  · have hframe := List.mem_map_of_mem (f := Sent.frame) hx
    rw [map_frame_sends] at hframe
    obtain ⟨m, -, s', hheaded', hds, hm⟩ := exists_of_mem_frames hheaded hframe
    have hread := read_comesAs hheaded' m (Frame.ComesAs.refl (m.frame P.toFormat s'))
    rw [← hm] at hread
    refine ⟨hm ▸ P.le_header.trans (header_le_length _ _), ?_⟩
    rw [← hds]
    exact congrArg (fun r => r.1.sourcePortIdentity) hread

/-- A packet of its own is not accepted. -/
theorem Owned.not_accepted (h : Owned ppi) (hpkt : ∃ x ∈ ppi.sent, x.frame.ComesAs call.pkt) :
    ¬ call.Accepted P ppi.ds ∧ 0 < call.pkt.length := by
  obtain ⟨x, hx, hcomes⟩ := hpkt
  obtain ⟨hlong, hown⟩ := h.own x hx
  have hle := hcomes.length_le
  refine ⟨fun haccepted => haccepted.2 ?_, by omega⟩
  rw [hcomes.header hlong]
  exact congrArg PortIdentity.clockIdentity hown

end Owned

/-! ## The lines -/

section Lines

variable {call : Call} {bitslide : ℤ}

/-- What is printed of the frames is when they were sent. -/
theorem callEvents_eq {ms : List Message} {ppi' : Ppi} (hemits : Emits P w ms ppi ppi') :
    callEvents call bitslide ppi ppi' =
      (if 0 < call.pkt.length then [Event.recv call.rcvTime bitslide] else []) ++
        (sends P w ppi.toSender ppi.sent.length ms).map fun x => Event.send x.result.wrTs := by
  rw [callEvents, hemits.sent, List.drop_left]

/-- Without an accepted packet only the Syncs that are due are sent. -/
theorem emitted_of_not_accepted {own : DataSets} {vlans : List (BitVec 16)}
    (h : ¬ call.Accepted P own) : emitted P w own vlans n call =
      if call.syncDue then dueSyncs P w vlans n else [] := by
  have hnone : call.request P own = none := if_neg fun hr => h hr.1
  rw [emitted, hnone, Option.toList_none, List.map_nil, ite_self, List.append_nil]

theorem not_accepted_of_length {own : DataSets} (hpkt : call.pkt.length = 0) :
    ¬ call.Accepted P own := by
  intro h
  have hlong := h.1
  have hheader := P.le_header
  omega

/-- The measured pairs as lines of the log. -/
def pairLines (ps : List (TimeInternal × TimeInternal)) : List Timing.Run :=
  ps.map fun p => ⟨[p.1], p.2⟩

variable (htable : table.find? (fun ip => ip.1 = .master) = some (.master, ppMaster P w))

/-- A master that is in one VLAN at most, with its own frames. -/
structure Measures (P : Ppsi) (ppi : Ppi) : Prop where
  isMaster : ppi.IsMaster
  owned : Owned ppi
  single : Single P ppi.vlans

include htable

theorem Measures.activate (h : Measures P ppi) (hcalm : call.Calm P) :
    Measures P (activate P table ppi call) := by
  obtain ⟨hemits, -, hvlans⟩ := emits_activate call htable h.isMaster.state
  exact ⟨h.isMaster.activate htable hcalm, h.owned.emits hemits, hvlans.symm ▸ h.single⟩

/-- **The lines of a run** are in step with the Syncs: with none out the next
line is that of the next Sync, with one out that of the one that is. -/
theorem runs_events (hmeasures : Measures P ppi) (h : Looped P table ppi out calls) :
    (out = false → ∃ tail, tail.length ≤ 1 ∧ runs (events P table ppi calls) =
      (pairLines (measured w ppi.sent.length calls), tail)) ∧
    (out = true → ∀ n, n + 1 = ppi.sent.length → ∃ tail, tail.length ≤ 1 ∧
      runs (Event.send (w.result n).wrTs :: events P table ppi calls) =
        (pairLines (measured w n calls), tail)) := by
  induction h with
  | done ppi out =>
    exact ⟨fun _ => ⟨[], Nat.zero_le _, rfl⟩, fun _ n _ => ⟨[_], le_rfl, rfl⟩⟩
  | @idle ppi out call calls bitslide hcalm hpkt hdue h ih =>
    obtain ⟨hemits, -, -⟩ := emits_activate call htable hmeasures.isMaster.state
    rw [emitted_of_not_accepted (not_accepted_of_length hpkt), hdue] at hemits
    have hnone : callEvents call bitslide ppi (activate P table ppi call) = [] := by
      rw [callEvents_eq hemits, hpkt]
      rfl
    have hlength : (activate P table ppi call).sent.length = ppi.sent.length := hemits.length_sent
    have hskip : ∀ n, measured w n ((call, bitslide) :: calls) = measured w n calls :=
      fun n => if_pos hpkt
    obtain ⟨hready, hout⟩ := ih (hmeasures.activate htable hcalm)
    rw [hlength] at hready hout
    simp only [events, hnone, List.nil_append, hskip]
    exact ⟨hready, hout⟩
  | @due ppi call calls bitslide hcalm hpkt hdue h ih =>
    obtain ⟨hemits, -, -⟩ := emits_activate call htable hmeasures.isMaster.state
    rw [emitted_of_not_accepted (not_accepted_of_length hpkt), hdue, if_pos rfl, dueSyncs,
      if_pos hmeasures.single] at hemits
    have hone : callEvents call bitslide ppi (activate P table ppi call) =
        [Event.send (w.result ppi.sent.length).wrTs] := by
      rw [callEvents_eq hemits, hpkt]
      rfl
    obtain ⟨-, hout⟩ := ih (hmeasures.activate htable hcalm)
    refine ⟨fun _ => ?_, fun hfalse => Bool.noConfusion hfalse⟩
    simp only [events, hone, List.singleton_append, measured, if_pos hpkt]
    exact hout rfl _ hemits.length_sent.symm
  | @back ppi call calls bitslide hcalm hpkt hdue h ih =>
    obtain ⟨x, hx, hcomes⟩ := hpkt
    obtain ⟨hnot, hpos⟩ := hmeasures.owned.not_accepted (P := P)
      ⟨x, List.mem_of_getLast? hx, hcomes⟩
    obtain ⟨hemits, -, -⟩ := emits_activate call htable hmeasures.isMaster.state
    rw [emitted_of_not_accepted hnot, hdue] at hemits
    have hone : callEvents call bitslide ppi (activate P table ppi call) =
        [Event.recv call.rcvTime bitslide] := by
      rw [callEvents_eq hemits, if_pos hpos]
      rfl
    have hlength : (activate P table ppi call).sent.length = ppi.sent.length := hemits.length_sent
    obtain ⟨hready, -⟩ := ih (hmeasures.activate htable hcalm)
    refine ⟨fun hfalse => Bool.noConfusion hfalse, fun _ n hn => ?_⟩
    obtain ⟨tail, htail, hruns⟩ := hready rfl
    refine ⟨tail, htail, ?_⟩
    rw [hlength, ← hn] at hruns
    simp only [events, hone, List.singleton_append, measured, if_neg hpos.ne', runs, hruns]
    rfl

/-! ## The reader -/

omit htable in
theorem mem_sends {s : Sender} {ms : List Message} {x : Sent} (hx : x ∈ sends P w s n ms) :
    ∃ k, x.result = w.result k := by
  induction ms generalizing s n with
  | nil => cases hx
  | cons m ms ih =>
    rcases List.mem_cons.1 hx with rfl | hx
    · exact ⟨n, rfl⟩
    · exact ih hx

/-- What is printed is the time of a send, or that of a packet. -/
theorem events_forall {p : Event → Prop} (hsend : ∀ k, p (.send (w.result k).wrTs))
    (hmaster : ppi.IsMaster) (hcalm : ∀ c ∈ calls, c.1.Calm P)
    (hrecv : ∀ c ∈ calls, p (.recv c.1.rcvTime c.2)) : ∀ e ∈ events P table ppi calls, p e := by
  induction calls generalizing ppi with
  | nil =>
    intro e he
    cases he
  | cons c calls ih =>
    obtain ⟨hc, hcs⟩ := List.forall_mem_cons.1 hcalm
    obtain ⟨hp, hps⟩ := List.forall_mem_cons.1 hrecv
    obtain ⟨hemits, -, -⟩ := emits_activate c.1 htable hmaster.state
    intro e he
    simp only [events, callEvents_eq hemits] at he
    rcases List.mem_append.1 he with he | he
    · rcases List.mem_append.1 he with he | he
      · split_ifs at he
        · exact List.mem_singleton.1 he ▸ hp
        · cases he
      · obtain ⟨x, hx, rfl⟩ := List.mem_map.1 he
        obtain ⟨k, hk⟩ := mem_sends hx
        rw [hk]
        exact hsend k
    · exact ih (hmaster.activate htable hc) hcs hps e he

omit htable in
theorem Looped.calm (h : Looped P table ppi out calls) : ∀ c ∈ calls, c.1.Calm P := by
  induction h with
  | done => exact fun _ hc => by cases hc
  | idle _ hcalm _ _ _ ih => exact List.forall_mem_cons.2 ⟨hcalm, ih⟩
  | due _ hcalm _ _ _ ih => exact List.forall_mem_cons.2 ⟨hcalm, ih⟩
  | back _ hcalm _ _ _ ih => exact List.forall_mem_cons.2 ⟨hcalm, ih⟩

omit htable in
/-- A receive that is not before the bitslide has no negative field. -/
theorem nonNeg_stamp_recv {wrTs : TimeInternal} {bitslide : ℤ} (h : bitslide ≤ wrTs.total) :
    (Event.recv wrTs bitslide).stamp.NonNeg := by
  obtain ⟨hphase, hns⟩ := tsSub_nonneg wrTs ⟨0, 0, bitslide⟩
  obtain ⟨hphase', hns'⟩ := tsAdd_range (a := tsSub wrTs ⟨0, 0, bitslide⟩) (b := ⟨0, 0, 0⟩)
    (by rwa [add_zero]) (by rwa [add_zero])
  have htotal : (Event.recv wrTs bitslide).stamp.total = wrTs.total - bitslide := by
    rw [Event.stamp, total_tsAdd, total_tsSub]
    simp only [TimeInternal.total]
    ring
  refine ⟨?_, hns'.1, hphase'.1⟩
  have hunit : (ppNsecPerSec : ℤ) = 10 ^ 9 := rfl
  have hlt := hns'.2
  have hlt' := hphase'.2
  change (Event.recv wrTs bitslide).stamp.phase < 1000 at hlt'
  change (Event.recv wrTs bitslide).stamp.nanoseconds < ppNsecPerSec at hlt
  rw [TimeInternal.total] at htotal
  omega

omit htable in
theorem readRuns_pairLines (ps : List (TimeInternal × TimeInternal)) {tail : List TimeInternal}
    (htail : tail.length ≤ 1) : readRuns (pairLines ps) tail = ps := by
  induction ps with
  | nil =>
    match tail, htail with
    | [], _ => rfl
    | [_], _ => rfl
  | cons p ps ih => exact congrArg (p :: ·) ih

/-- **The calibration finds every Sync that comes back.** In any run of a master
whose Syncs come back to it in turn, with times that the clock can show, the
reader of the log gets from it, for each packet, the time of its own Sync and of
its receive. -/
theorem calibrates (hmeasures : Measures P ppi) (hlooped : Looped P table ppi false calls)
    (hsend : ∀ k, (w.result k).wrTs.NonNeg) (hrecv : ∀ c ∈ calls, c.2 ≤ c.1.rcvTime.total) :
    wrAbsCalGuiFileToScipyArray (log (events P table ppi calls)) =
      .ok (GuiData.ofPairs (measured w ppi.sent.length calls)) := by
  have hnonNeg : ∀ e ∈ events P table ppi calls, e.stamp.NonNeg :=
    events_forall htable (fun k => ⟨(hsend k).seconds, (hsend k).nanoseconds, le_rfl⟩)
      hmeasures.isMaster hlooped.calm fun c hc => nonNeg_stamp_recv (hrecv c hc)
  obtain ⟨tail, htail, hruns⟩ := (runs_events htable hmeasures hlooped).1 rfl
  rw [wrAbsCalGuiFileToScipyArray_log hnonNeg, hruns, readRuns_pairLines _ htail]

end Lines

/-! One Sync, and its way back. -/

/-- Every send is good. -/
def sampleLoopWorld : World where
  now n := ⟨n, 0, 0⟩
  result n := ⟨44, ⟨n, 10, 0⟩, true⟩

/-- The table of states has the master only. -/
def sampleLoopTable : List (State × StateFunction) :=
  [(.master, ppMaster samplePpsi sampleLoopWorld)]

/-- The Sync is due, -/
def sampleDue : Call := sampleCall ⟨fun _ => 0, 0⟩ true

/-- and comes back. -/
def sampleBack : Call :=
  sampleCall ⟨(activate samplePpsi sampleLoopTable samplePpi sampleDue).txPtp, 44⟩ false

theorem measures_sample : Measures samplePpsi samplePpi where
  isMaster := isMaster_samplePpi
  owned := ⟨⟨_, headed_msgPackHeader (sampleSender 0x0100)⟩, fun x hx => by cases hx⟩
  single := .inl (Nat.zero_le _)

theorem looped_sample : Looped samplePpsi sampleLoopTable samplePpi false
    [(sampleDue, 0), (sampleBack, 0)] :=
  .due 0 (calm_sampleCall _ _) rfl rfl <|
    .back 0 (calm_sampleCall _ _) ⟨_, rfl, Frame.ComesAs.refl _⟩ rfl (.done _ _)

theorem calibrates_sample :
    wrAbsCalGuiFileToScipyArray (log (events samplePpsi sampleLoopTable samplePpi
      [(sampleDue, 0), (sampleBack, 0)])) =
      .ok (GuiData.ofPairs [(⟨0, 10, 0⟩, ⟨5, 6, 0⟩)]) := by
  have hmeasured : measured sampleLoopWorld 0 [(sampleDue, 0), (sampleBack, 0)] =
      [(⟨0, 10, 0⟩, (Event.recv ⟨5, 6, 0⟩ 0).stamp)] := rfl
  have hstamp : (Event.recv ⟨5, 6, 0⟩ 0).stamp = ⟨5, 6, 0⟩ :=
    Event.stamp_recv le_rfl le_rfl (by decide) (by decide) (by decide)
  have hsend : ∀ k, (sampleLoopWorld.result k).wrTs.NonNeg :=
    fun k => ⟨Int.natCast_nonneg k, (by decide : (0 : ℤ) ≤ 10), le_rfl⟩
  rw [calibrates rfl measures_sample looped_sample hsend (by decide), ← hstamp, ← hmeasured]
  rfl

end Ptp

end WrCalibration
