import WrCalibration.Ipmux.TxStreamSel

/-!
# The phases of a stream

Seen from one of the streams, `TxStreamSel` goes through four phases: away
from it, with the pulse that selects it, connected, and reading. The pulse lasts
one cycle (`Pulsed.step`), and every edge takes a stream from one phase to the
next by the flags of its FIFOs (`phase_step`).
-/

namespace WrCalibration

namespace Ipmux

open Clocked

/-- Where a stream stands between two selections: away, selected with the
pulse to its second FIFO, connected after it, or read. -/
inductive Phase where
  | away | chosen | held | reading
  deriving DecidableEq

namespace Phase

/-- From one phase to the next, by the flags of the two FIFOs. -/
inductive Next (packet eod : Bool) : Phase → Phase → Prop
  | wait : Next packet eod away away
  | choose : packet = true → Next packet eod away chosen
  | hold {ph : Phase} : ph = chosen ∨ ph = held → Next packet eod ph held
  | opens {ph : Phase} : ph = chosen ∨ ph = held → Next packet eod ph reading
  | go : eod = false → Next packet eod reading reading
  | done : eod = true → Next packet eod reading away

theorem Next.reading_of_eod {packet eod : Bool} {ph : Phase} (h : Next packet eod reading ph)
    (heod : eod = false) : ph = reading := by
  cases h with
  | hold hor => rcases hor with hor | hor <;> cases hor
  | opens _ => rfl
  | go _ => rfl
  | done hdone => exact absurd (heod.symm.trans hdone) (by decide)

/-- The packet of the stream that is selected and not read to its end. -/
def holds : Phase → ℕ
  | away | chosen => 0
  | held | reading => 1

variable {ph : Phase}

theorem ne_reading (h : ph = chosen ∨ ph = held) : ph ≠ reading := by
  rcases h with rfl | rfl
  · decide
  · decide

end Phase

namespace TxStreamSel

variable {s : TxStreamSel} {i : TxStreamInput} {k : Fin numUdpPrts}

/-- The phase of a stream. -/
def phase (s : TxStreamSel) (k : Fin numUdpPrts) : Phase :=
  if s.streamPointer = k then
    match s.state with
    | .idle | .searchConnect => .away
    | .stateConnected => if s.packetRdReq k then .chosen else .held
    | .readUntilEOP => .reading
  else .away

/-- A pulse of `Packet_RdReq` selects the pointed stream. -/
def Pulsed (s : TxStreamSel) : Prop := ∀ k, s.packetRdReq k = true → s.phase k = .chosen

theorem pulsed_reset : Pulsed reset := fun _ h => absurd h (by simp [reset])

theorem packetRdReq_eq (h : Pulsed s) : s.packetRdReq k = decide (s.phase k = .chosen) := by
  cases hp : s.packetRdReq k with
  | true => rw [decide_eq_true (h k hp)]
  | false =>
    have hne : s.phase k ≠ .chosen := by
      unfold phase
      split
      · cases hs : s.state <;> simp [hp]
      · decide
    rw [decide_eq_false hne]

theorem phase_eq_reading :
    s.phase k = .reading ↔ s.state = .readUntilEOP ∧ s.streamPointer = k := by
  unfold phase
  split
  · rename_i hk
    cases hs : s.state <;> simp [hk]
    split <;> decide
  · rename_i hk
    simp [hk]

theorem rdReqOut_eq : s.rdReqOut k = decide (s.phase k = .reading) := by
  rw [rdReqOut, decide_eq_decide, phase_eq_reading, eq_comm (a := k)]

/-- A stream the pointer does not stand on is away. -/
theorem phase_of_ne (hk : s.streamPointer ≠ k) : s.phase k = .away := if_neg hk

theorem phase_away (hs : s.state = .idle ∨ s.state = .searchConnect) : s.phase k = .away := by
  rcases hs with hs | hs <;> simp [phase, hs]

theorem phase_chosen (hk : s.streamPointer = k) (hs : s.state = .stateConnected)
    (hp : s.packetRdReq k = true) : s.phase k = .chosen := by
  simp [phase, hk, hs, hp]

theorem phase_held (hk : s.streamPointer = k) (hs : s.state = .stateConnected)
    (hp : s.packetRdReq k = false) : s.phase k = .held := by
  simp [phase, hk, hs, hp]

@[simp] theorem setPacketRdReq_self {b : Bool} : s.setPacketRdReq b s.streamPointer = b :=
  Function.update_self _ _ _

theorem setPacketRdReq_of_ne {b : Bool} (hk : s.streamPointer ≠ k) :
    s.setPacketRdReq b k = s.packetRdReq k :=
  Function.update_of_ne (Ne.symm hk) _ _

/-- What an edge does to the state, the pointer and the pulses. -/
inductive Edge (s : TxStreamSel) (i : TxStreamInput) (s' : TxStreamSel) : Prop
  | search : s.state = .idle ∨ s.state = .searchConnect →
      s'.state = .idle ∨ s'.state = .searchConnect → s'.packetRdReq = s.packetRdReq → Edge s i s'
  | select : s.state = .searchConnect → i.packet s.streamPointer = true →
      s'.state = .stateConnected → s'.streamPointer = s.streamPointer →
      s'.packetRdReq = s.setPacketRdReq true → Edge s i s'
  | connect : s.state = .stateConnected →
      s'.state = .stateConnected ∨ s'.state = .readUntilEOP →
      s'.streamPointer = s.streamPointer → s'.packetRdReq = s.setPacketRdReq false → Edge s i s'
  | read : s.state = .readUntilEOP → (i.txi s.streamPointer).eod = false →
      s'.state = .readUntilEOP → s'.streamPointer = s.streamPointer →
      s'.packetRdReq = s.packetRdReq → Edge s i s'
  | finish : s.state = .readUntilEOP → (i.txi s.streamPointer).eod = true →
      s'.state = .idle → s'.streamPointer = s.streamPointer →
      s'.packetRdReq = s.packetRdReq → Edge s i s'

theorem edge_step (s : TxStreamSel) (i : TxStreamInput) : Edge s i (s.step i) := by
  cases hs : s.state with
  | idle =>
    simp only [TxStreamSel.step, hs]
    split
    · exact .search (.inl hs) (.inr rfl) rfl
    · exact .search (.inl hs) (.inl rfl) rfl
  | searchConnect =>
    simp only [TxStreamSel.step, hs]
    split
    · rename_i hpacket
      exact .select hs hpacket rfl rfl rfl
    · exact .search (.inr hs) (.inr rfl) rfl
  | stateConnected =>
    simp only [TxStreamSel.step, hs]
    split
    · exact .connect hs (.inr rfl) rfl rfl
    · exact .connect hs (.inl rfl) rfl rfl
  | readUntilEOP =>
    simp only [TxStreamSel.step, hs]
    split
    · rename_i heod
      exact .finish hs heod rfl rfl rfl
    · rename_i heod
      exact .read hs (Bool.eq_false_iff.2 heod) rfl rfl rfl

theorem state_step_of_eod (hs : s.state = .readUntilEOP)
    (heod : (i.txi s.streamPointer).eod = true) : (s.step i).state = .idle := by
  simp only [TxStreamSel.step, hs, heod, if_true]

/-- The pulse is up in one state only. -/
theorem Pulsed.state (h : Pulsed s) (hp : s.packetRdReq k = true) : s.state = .stateConnected := by
  have hchosen := h k hp
  unfold phase at hchosen
  split at hchosen
  · cases hs : s.state <;> simp [hs] at hchosen ⊢
  · cases hchosen

/-- **The pulse lasts one cycle.** -/
theorem Pulsed.step (h : Pulsed s) : Pulsed (s.step i) := by
  intro k hk
  have hstay : (s.step i).packetRdReq = s.packetRdReq → s.state = .stateConnected :=
    fun hset => h.state (by rw [← hset, hk])
  cases edge_step s i with
  | search hs _ hset =>
    have hconnected := hstay hset
    rcases hs with hs | hs
    · exact absurd (hs.symm.trans hconnected) (by decide)
    · exact absurd (hs.symm.trans hconnected) (by decide)
  | select hs _ hs' hptr hset =>
    by_cases hkp : s.streamPointer = k
    · exact phase_chosen (hptr.trans hkp) hs' hk
    · rw [hset, setPacketRdReq_of_ne hkp] at hk
      exact absurd (hs.symm.trans (h.state hk)) (by decide)
  | connect _ _ _ hset =>
    rw [hset] at hk
    by_cases hkp : s.streamPointer = k
    · rw [← hkp, setPacketRdReq_self] at hk
      cases hk
    · rw [setPacketRdReq_of_ne hkp] at hk
      exact absurd ((phase_of_ne hkp).symm.trans (h k hk)) (by decide)
  | read hs _ _ _ hset => exact absurd (hs.symm.trans (hstay hset)) (by decide)
  | finish hs _ _ _ hset => exact absurd (hs.symm.trans (hstay hset)) (by decide)

/-- **What the selection does to a stream**, at an edge. -/
theorem phase_step (s : TxStreamSel) (i : TxStreamInput) (k : Fin numUdpPrts) :
    Phase.Next (i.packet k) (i.txi k).eod (s.phase k) ((s.step i).phase k) := by
  by_cases hk : s.streamPointer = k
  · cases edge_step s i with
    | search hs hs' _ =>
      rw [phase_away hs, phase_away hs']
      exact .wait
    | select hs hpacket hs' hptr hset =>
      rw [phase_away (.inr hs), phase_chosen (hptr.trans hk) hs'
        (by rw [hset, ← hk, setPacketRdReq_self])]
      exact .choose (hk ▸ hpacket)
    | connect hs hs' hptr hset =>
      -- whether the pulse is still out tells the first cycle from the later ones
      have hnow : s.phase k = .chosen ∨ s.phase k = .held := by
        cases hp : s.packetRdReq k with
        | true => exact .inl (phase_chosen hk hs hp)
        | false => exact .inr (phase_held hk hs hp)
      rcases hs' with hs' | hs'
      · rw [phase_held (hptr.trans hk) hs' (by rw [hset, ← hk, setPacketRdReq_self])]
        exact .hold hnow
      · rw [phase_eq_reading.2 ⟨hs', hptr.trans hk⟩]
        exact .opens hnow
    | read hs heod hs' hptr _ =>
      rw [phase_eq_reading.2 ⟨hs, hk⟩, phase_eq_reading.2 ⟨hs', hptr.trans hk⟩]
      exact .go (hk ▸ heod)
    | finish hs heod hs' hptr _ =>
      rw [phase_eq_reading.2 ⟨hs, hk⟩, phase_away (.inl hs')]
      exact .done (hk ▸ heod)
  -- a stream the pointer is not at, nor moves to, stays where it is
  · have haway : (s.step i).phase k = .away := by
      cases edge_step s i with
      | search _ hs' _ => exact phase_away hs'
      | select _ _ _ hptr _ => exact phase_of_ne (hptr ▸ hk)
      | connect _ _ hptr _ => exact phase_of_ne (hptr ▸ hk)
      | read _ _ _ hptr _ => exact phase_of_ne (hptr ▸ hk)
      | finish _ _ _ hptr _ => exact phase_of_ne (hptr ▸ hk)
    rw [phase_of_ne hk, haway]
    exact .wait

end TxStreamSel

end Ipmux

end WrCalibration
