import WrCalibration.Common.Clocked
import WrCalibration.Ipmux.Package

/-!
# The selection of a stream

`TxStreamSel` goes round the streams, connects one that has a packet to
`tx_data2buf`, and reads that one until the end of its data. What
`tx_data2buf` relies on: while a stream is being connected, no word of it
is valid yet.
-/

namespace WrCalibration

namespace Ipmux

open Clocked

/-- `state_type` of `TxStreamSel`. -/
inductive TxStreamState where
  | idle | searchConnect | readUntilEOP | stateConnected
  deriving DecidableEq

/-- The signals of `TxStreamSel`. -/
structure TxStreamSel where
  state : TxStreamState
  streamPointer : Fin numUdpPrts
  connected : Bool
  packetRdReq : Fin numUdpPrts → Bool
  stream : Fin numUdpPrts
  dout : Word
  eodOut : Bool
  validOut : Bool

/-- The inputs of a cycle. -/
structure TxStreamInput where
  packet : Fin numUdpPrts → Bool
  connectReq : Bool
  rdReqIn : Bool
  txi : Fin numUdpPrts → Dbus
  validIn : Fin numUdpPrts → Bool

namespace TxStreamSel

variable (s : TxStreamSel) (i : TxStreamInput)

/-- The first stream. -/
def firstStream : Fin numUdpPrts := ⟨0, by decide⟩

/-- `IncStreamPointer`: the next stream, and the first after the last. -/
def nextStream (k : Fin numUdpPrts) : Fin numUdpPrts :=
  if h : k.val + 1 < numUdpPrts then ⟨k.val + 1, h⟩ else firstStream

/-- The state after a reset. -/
def reset : TxStreamSel where
  state := .idle
  streamPointer := firstStream
  connected := false
  packetRdReq := fun _ => false
  stream := firstStream
  dout := 0
  eodOut := false
  validOut := false

@[inherit_doc nextStream] def incStreamPointer : Fin numUdpPrts := nextStream s.streamPointer

/-- A bit of `Packet_RdReq`. -/
def setPacketRdReq (b : Bool) : Fin numUdpPrts → Bool :=
  Function.update s.packetRdReq s.streamPointer b

/-- The word of the selected stream that is passed on. -/
def nextValid : Bool :=
  if s.state = .readUntilEOP then
    if i.validIn s.streamPointer = false ∨ i.rdReqIn = true then i.validIn s.streamPointer
    else false
  else false

/-- The pipeline to `tx_data2buf`. -/
def pipeline : TxStreamSel :=
  { s with
    stream := s.streamPointer, dout := (i.txi s.streamPointer).d
    eodOut := (i.txi s.streamPointer).eod, validOut := s.nextValid i }

/-- **One clock edge** of `TxStreamSel`. -/
def step : TxStreamSel :=
  match s.state with
  | .idle =>
    if (List.finRange numUdpPrts).any i.packet && i.connectReq then
      { s.pipeline i with state := .searchConnect, streamPointer := s.incStreamPointer }
    else { s.pipeline i with state := .idle, connected := false }
  | .searchConnect =>
    if i.packet s.streamPointer then
      { s.pipeline i with
        state := .stateConnected, packetRdReq := s.setPacketRdReq true, connected := true }
    else { s.pipeline i with state := .searchConnect, streamPointer := s.incStreamPointer }
  | .stateConnected =>
    if !i.connectReq then
      { s.pipeline i with
        state := .readUntilEOP, packetRdReq := s.setPacketRdReq false, connected := false }
    else
      { s.pipeline i with
        state := .stateConnected, packetRdReq := s.setPacketRdReq false, connected := true }
  | .readUntilEOP =>
    if (i.txi s.streamPointer).eod then { s.pipeline i with state := .idle, connected := false }
    else { s.pipeline i with state := .readUntilEOP, connected := false }

/-- `RdReqOut` -/
def rdReqOut : Fin numUdpPrts → Bool := fun k =>
  decide (s.state = .readUntilEOP ∧ k = s.streamPointer)

/-! ## The handshake -/

/-- **The handshake**: connected is the state of that name, and nothing is
valid in it. -/
structure Handshake : Prop where
  connected : s.connected = true → s.state = .stateConnected
  quiet : s.state = .stateConnected → s.validOut = false

variable {s}

theorem handshake_of_ne (hc : s.connected = false) (hs : s.state ≠ .stateConnected) :
    Handshake s :=
  ⟨fun h => absurd (hc.symm.trans h) (by decide), fun h => absurd h hs⟩

theorem handshake_reset : Handshake reset := handshake_of_ne rfl nofun

theorem Handshake.not_connected (h : Handshake s) (hs : s.state ≠ .stateConnected) :
    s.connected = false := by
  cases hc : s.connected with
  | false => rfl
  | true => exact absurd (h.connected hc) hs

theorem Handshake.step (h : Handshake s) : Handshake (s.step i) := by
  cases hs : s.state with
  | idle =>
    have hnot := h.not_connected (by rw [hs]; decide)
    simp only [TxStreamSel.step, hs]
    split
    · exact handshake_of_ne hnot nofun
    · exact handshake_of_ne rfl nofun
  | searchConnect =>
    have hnot := h.not_connected (by rw [hs]; decide)
    simp only [TxStreamSel.step, hs]
    split
    · exact ⟨fun _ => rfl, fun _ => by simp [pipeline, nextValid, hs]⟩
    · exact handshake_of_ne hnot nofun
  | stateConnected =>
    simp only [TxStreamSel.step, hs]
    split
    · exact handshake_of_ne rfl nofun
    · exact ⟨fun _ => rfl, fun _ => by simp [pipeline, nextValid, hs]⟩
  | readUntilEOP =>
    simp only [TxStreamSel.step, hs]
    split
    · exact handshake_of_ne rfl nofun
    · exact handshake_of_ne rfl nofun

/-- **No word while a stream is being connected**, in any run from a
reset. -/
theorem validOut_of_connected {ins : List TxStreamInput}
    (h : (run TxStreamSel.step reset ins).connected = true) :
    (run TxStreamSel.step reset ins).validOut = false := by
  have hrun : Handshake (run TxStreamSel.step reset ins) :=
    run_invariant handshake_reset fun _ i hs => hs.step i
  exact hrun.quiet (hrun.connected h)

/-! ## Round robin -/

/-- The stream a cycle connects. -/
def connects (c : TxStreamSel × TxStreamInput) : Option (Fin numUdpPrts) :=
  if c.1.state = .searchConnect ∧ c.2.packet c.1.streamPointer = true then some c.1.streamPointer
  else none

/-- The cycle that ends the service of a stream. -/
def EndsService (c : TxStreamSel × TxStreamInput) : Prop :=
  c.1.state = .readUntilEOP ∧ (c.2.txi c.1.streamPointer).eod = true

instance : DecidablePred EndsService := fun _ => inferInstanceAs (Decidable (_ ∧ _))

/-- The steps from one stream to another, the way the pointer goes. -/
def away (i k : Fin numUdpPrts) : ℕ := (k.val + numUdpPrts - i.val) % numUdpPrts

theorem away_nextStream : ∀ i j k : Fin numUdpPrts, away i k ≤ away i j → k ≠ j →
    away i (nextStream k) ≤ away i j ∧ nextStream k ≠ i := by
  decide

variable {i : TxStreamInput} {a b : Fin numUdpPrts}

/-- **On the way** from one stream to another that waits: the pointer is
not behind the one that waits, and it leaves the first one for good. -/
structure Passing (a b : Fin numUdpPrts) (s : TxStreamSel) : Prop where
  le : away a s.streamPointer ≤ away a b
  idle : s.streamPointer = a → s.state = .idle
  search : s.streamPointer = b → s.state = .searchConnect

/-- The pointer moves on, not past the stream that waits. -/
theorem Passing.next {s' : TxStreamSel} (h : Passing a b s) (hb : s.streamPointer ≠ b)
    (hptr : s'.streamPointer = s.incStreamPointer) (hs : s'.state = .searchConnect) :
    Passing a b s' := by
  obtain ⟨hle, hne⟩ := away_nextStream a b s.streamPointer h.le hb
  refine ⟨?_, ?_, fun _ => hs⟩
  · rw [hptr]
    exact hle
  · intro heq
    rw [hptr] at heq
    exact absurd heq hne

/-- The pointer stays, away from both. -/
theorem Passing.stay {s' : TxStreamSel} (h : Passing a b s)
    (hptr : s'.streamPointer = s.streamPointer)
    (ha : s.streamPointer = a → s'.state = .idle) (hb : s.streamPointer ≠ b) :
    Passing a b s' :=
  ⟨by rw [hptr]; exact h.le, fun heq => ha (hptr.symm.trans heq),
    fun heq => absurd (hptr.symm.trans heq) hb⟩

/-- **A stream that waits is not passed over.** -/
theorem Passing.step (h : Passing a b s) (hflag : i.packet b = true)
    (hnot : connects (s, i) ≠ some b) : Passing a b (s.step i) := by
  cases hs : s.state with
  | idle =>
    have hb : s.streamPointer ≠ b := fun heq => by simp [h.search heq] at hs
    simp only [TxStreamSel.step, hs]
    split
    · exact h.next hb rfl rfl
    · exact h.stay rfl (fun _ => rfl) hb
  | searchConnect =>
    have ha : s.streamPointer ≠ a := fun heq => by simp [h.idle heq] at hs
    simp only [TxStreamSel.step, hs]
    split
    · rename_i hpacket
      -- the pointed stream is connected, so it is not the one that waits
      have hb : s.streamPointer ≠ b := fun heq => hnot (by simp [connects, hs, ← heq, hpacket])
      exact h.stay rfl (fun heq => absurd heq ha) hb
    · rename_i hpacket
      have hb : s.streamPointer ≠ b := fun heq => hpacket (by rw [heq, hflag])
      exact h.next hb rfl rfl
  | stateConnected =>
    have ha : s.streamPointer ≠ a := fun heq => by simp [h.idle heq] at hs
    have hb : s.streamPointer ≠ b := fun heq => by simp [h.search heq] at hs
    simp only [TxStreamSel.step, hs]
    split
    · exact h.stay rfl (fun heq => absurd heq ha) hb
    · exact h.stay rfl (fun heq => absurd heq ha) hb
  | readUntilEOP =>
    have ha : s.streamPointer ≠ a := fun heq => by simp [h.idle heq] at hs
    have hb : s.streamPointer ≠ b := fun heq => by simp [h.search heq] at hs
    simp only [TxStreamSel.step, hs]
    split
    · exact h.stay rfl (fun _ => rfl) hb
    · exact h.stay rfl (fun heq => absurd heq ha) hb

/-- A stream in service. -/
structure Serving (a : Fin numUdpPrts) (s : TxStreamSel) : Prop where
  state : s.state = .stateConnected ∨ s.state = .readUntilEOP
  streamPointer : s.streamPointer = a

theorem serving_of_connects (h : connects (s, i) = some a) : Serving a (s.step i) := by
  simp only [connects, Option.ite_none_right_eq_some, Option.some.injEq] at h
  obtain ⟨⟨hs, hpacket⟩, hptr⟩ := h
  have hstep : (s.step i).state = .stateConnected ∧ (s.step i).streamPointer = s.streamPointer := by
    simp [TxStreamSel.step, hs, hpacket, pipeline]
  exact ⟨.inl hstep.1, hstep.2.trans hptr⟩

/-- A service goes on until it is ended. -/
theorem Serving.step (h : Serving a s) (hnot : ¬ EndsService (s, i)) : Serving a (s.step i) := by
  rcases h.state with hs | hs
  · simp only [TxStreamSel.step, hs]
    split
    · exact ⟨.inr rfl, h.streamPointer⟩
    · exact ⟨.inl rfl, h.streamPointer⟩
  · simp only [TxStreamSel.step, hs]
    split
    · rename_i heod
      exact absurd ⟨hs, heod⟩ hnot
    · exact ⟨.inr rfl, h.streamPointer⟩

/-- At the end of a service the pointer stands on its stream. -/
theorem Serving.passing (h : Serving a s) (hend : EndsService (s, i)) (hab : a ≠ b) :
    Passing a b (s.step i) := by
  have hs : s.state = .readUntilEOP := hend.1
  have heod : (i.txi s.streamPointer).eod = true := hend.2
  have hidle : (s.step i).state = .idle := by simp only [TxStreamSel.step, hs, heod, if_true]
  have hptr : (s.step i).streamPointer = a := by
    simp only [TxStreamSel.step, hs, heod, if_true]
    exact h.streamPointer
  have haway : away a a = 0 := by
    rw [away, Nat.add_sub_cancel_left, Nat.mod_self]
  refine ⟨?_, fun _ => hidle, fun heq => absurd (hptr.symm.trans heq) hab⟩
  rw [hptr, haway]
  exact Nat.zero_le _

/-- **Round robin is fair.** Between the end of the service of a stream
and the next connection of that stream, every other stream that had a
packet all the time was connected. -/
theorem connected_between {pre service mid : List TxStreamInput} {first last c : TxStreamInput}
    (hfirst : connects (run TxStreamSel.step reset pre, first) = some a)
    (hservice : ∀ c ∈ trace TxStreamSel.step (run TxStreamSel.step reset (pre ++ [first])) service,
      ¬ EndsService c)
    (hlast : EndsService (run TxStreamSel.step reset (pre ++ first :: service), last))
    (hagain : connects (run TxStreamSel.step reset (pre ++ first :: service ++ last :: mid), c) =
      some a)
    (hab : a ≠ b) (hflag : ∀ i ∈ mid, i.packet b = true) :
    ∃ c ∈ trace TxStreamSel.step
      (run TxStreamSel.step reset (pre ++ first :: service ++ [last])) mid,
      connects c = some b := by
  by_contra hnone
  rw [not_exists] at hnone
  have hserving : Serving a (run TxStreamSel.step reset (pre ++ first :: service)) := by
    have hstart := serving_of_connects hfirst
    rw [run_append, run_cons, run_nil] at hservice
    rw [run_append, run_cons]
    exact run_guarded hstart (fun _ _ hq hs => hs.step hq) hservice
  have hpassing := hserving.passing hlast hab
  have hmid : Passing a b
      (run TxStreamSel.step reset (pre ++ first :: service ++ last :: mid)) := by
    rw [run_append, run_cons, run_nil] at hnone
    rw [run_append, run_cons]
    refine run_guarded (q := fun c => c.2.packet b = true ∧ connects c ≠ some b) hpassing
      (fun _ _ hq hs => hs.step hq.1 hq.2) fun c hc => ⟨?_, fun heq => hnone c ⟨hc, heq⟩⟩
    exact hflag _ (mem_of_mem_trace hc)
  simp only [connects, Option.ite_none_right_eq_some, Option.some.injEq] at hagain
  obtain ⟨⟨hs, _⟩, hptr⟩ := hagain
  rw [hmid.idle hptr] at hs
  cases hs

/-- A cycle in which the second and the third stream have a packet. -/
def twoWaiting (connectReq eod : Bool) : TxStreamInput where
  packet k := decide (k.val = 1 ∨ k.val = 2)
  connectReq := connectReq
  rdReqIn := true
  txi _ := { d := 0, eod := eod }
  validIn _ := true

theorem connected_between_two :
    ∃ c ∈ trace TxStreamSel.step (run TxStreamSel.step reset
      ([twoWaiting true false] ++ twoWaiting true false :: [twoWaiting false false] ++
        [twoWaiting false true]))
      [twoWaiting true false, twoWaiting true false, twoWaiting false false, twoWaiting false true,
        twoWaiting true false, twoWaiting true false, twoWaiting true false],
      connects c = some ⟨2, by decide⟩ :=
  connected_between (a := ⟨1, by decide⟩) (c := twoWaiting true false) (by decide) (by decide)
    (by decide) (by decide) (by decide) (by decide)

end TxStreamSel

end Ipmux

end WrCalibration
