import WrCalibration.Common.AsyncFifo
import WrCalibration.Common.Segments
import WrCalibration.Ipmux.TxPhase

/-!
# The FIFOs of the streams

`txfifos` keeps two FIFOs for each stream: one of the words, and one that
is written with every end of data and read with every selection, of which
only the empty flag is used. `TxStreamSel` reads the words of a selected
stream up to the end of data without a look at their validity. That it
always reads one whole packet (`bookkeeping`) rests on the two FIFOs staying
in step (`Kept`), with any FIFOs that do (`TxFifoPair`).
-/

namespace WrCalibration

namespace Ipmux

open Clocked Segments

/-- `fifo_size` -/
def fifoSize : ℕ := 8192

/-- `full_threshold` -/
def fullThreshold : ℕ := fifoSize - 16

/-- **The two FIFOs of a stream**, written with one clock and read with
another. As long as they have had the same edges since their resets, and no
write met a full flag, an end of data that the second one shows is shown by the
first, at the latest one edge of the reader later. The room above the threshold
covers what the flags are late. -/
structure TxFifoPair where
  data : AsyncFifo Dbus fifoSize fullThreshold
  eod : AsyncFifo (BitVec 1) fifoSize fullThreshold
  InStep : data.State → eod.State → Prop
  inStep_reset : ∀ d e, InStep (data.reset d) (eod.reset e)
  inStep_write : ∀ d e we x, InStep d e →
    (we = true → data.full d = false ∧ eod.full e = false) →
    InStep (data.write d we x) (eod.write e (we && x.eod) 0)
  inStep_read : ∀ d e rd rd', InStep d e → InStep (data.read d rd) (eod.read e rd')
  seen_le : ∀ d e rd, InStep d e → (eod.written e).length = (data.written d).countP Dbus.eod →
    eod.seen e ≤ ((data.written d).take (data.seen (data.read d rd))).countP Dbus.eod
  slack_data : fullThreshold + data.slack ≤ fifoSize
  slack_eod : fullThreshold + eod.slack ≤ fifoSize

/-- The edges of its clock for which a writer may lag behind `Full`. -/
def TxFifoPair.lag (P : TxFifoPair) : ℕ :=
  fifoSize - fullThreshold - max P.data.slack P.eod.slack

/-- Of more words, and more of them. -/
theorem countP_take_le {l more : List Dbus} {a b : ℕ} (hab : a ≤ b) :
    (l.take a).countP Dbus.eod ≤ ((l ++ more).take b).countP Dbus.eod := by
  refine List.Sublist.countP_le (List.IsPrefix.sublist ?_)
  rw [List.prefix_take_iff, List.length_take]
  exact ⟨(List.take_prefix _ _).trans (List.prefix_append _ _), by omega⟩

section Abreast

variable {n : ℕ} {d : AsyncFifo.Synced Dbus n} {e : AsyncFifo.Synced (BitVec 1) n}

/-- Each end of data has gone as far as its word. -/
structure Abreast (d : AsyncFifo.Synced Dbus n) (e : AsyncFifo.Synced (BitVec 1) n) : Prop where
  written : e.written.length = d.written.countP Dbus.eod
  shown : ∀ i, e.shown i ≤ (d.written.take (d.shown i)).countP Dbus.eod

theorem Abreast.seenAt_le (h : Abreast d e) (i : ℕ) :
    e.seenAt i ≤ (d.written.take (d.seenAt i)).countP Dbus.eod := by
  cases i with
  | zero => exact (h.written.trans (congrArg _ List.take_length.symm)).le
  | succ i => exact h.shown i

end Abreast

/-- **The two FIFOs of a stream**, with `n` registers on each way. -/
def syncedTxFifos (n : ℕ) : TxFifoPair where
  data := AsyncFifo.synced Dbus fifoSize fullThreshold n
  eod := AsyncFifo.synced (BitVec 1) fifoSize fullThreshold n
  InStep := Abreast
  inStep_reset _ _ := ⟨rfl, fun _ => Nat.le_refl _⟩
  inStep_write d e we x h hroom := by
    refine ⟨?_, fun i => (h.shown i).trans (countP_take_le (Nat.le_refl _))⟩
    change (e.written ++ if (we && x.eod) && !AsyncFifo.full _ e then [0] else []).length =
      (d.written ++ if we && !AsyncFifo.full _ d then [x] else []).countP Dbus.eod
    rw [List.length_append, List.countP_append, h.written]
    cases we with
    | false => rfl
    | true =>
      obtain ⟨hd, he⟩ := hroom rfl
      cases hx : x.eod <;> simp [hd, he, hx]
  inStep_read _ _ _ _ h := ⟨h.written, h.seenAt_le⟩
  seen_le d e rd h _ := by
    have hmore : (d.written.take d.seen).countP Dbus.eod ≤
        ((d.written ++ []).take (AsyncFifo.Synced.seen (d.read rd))).countP Dbus.eod :=
      countP_take_le (AsyncFifo.Synced.le_behind_shift (Nat.le_refl _) d.shown_le n)
    rw [List.append_nil] at hmore
    exact (h.seenAt_le n).trans hmore
  slack_data := Nat.sub_le _ _
  slack_eod := Nat.sub_le _ _

/-- Without a register each side sees at once what the other does. -/
abbrev exactTxFifos : TxFifoPair := syncedTxFifos 0

/-- `Reg1En`: a register with an enable. -/
def reg1En (d en q : Bool) : Bool := if en then d else q

/-- One stream of `txfifos`. -/
structure TxFifo (P : TxFifoPair) where
  data : P.data.State
  eod : P.eod.State
  validIntern : Bool
  packetsDone : Bool

/-- An edge of the clock of a writer. -/
structure TxWrite where
  wrReq : Bool
  txi : Dbus

/-- The word that it writes. -/
def TxWrite.word (w : TxWrite) : Option Dbus := if w.wrReq then some w.txi else none

/-- The inputs of one stream in a cycle, with the edges of its writer in it; it
is not flushed. -/
structure TxFifoInput where
  rdReq : Bool
  packetRdReq : Bool
  writes : List TxWrite

variable {P : TxFifoPair}

namespace TxFifo

variable (f : TxFifo P) (rdReq packetRdReq : Bool) (w : TxWrite) (i : TxFifoInput)

/-- The state after a reset. -/
def reset : TxFifo P where
  data := P.data.reset f.data
  eod := P.eod.reset f.eod
  validIntern := false
  packetsDone := true

/-- `RdReq_Intern`: the next word is fetched as soon as the register is
free. -/
def rdReqIntern : Bool := !f.validIntern || rdReq

/-- `Full` -/
def full : Bool := P.data.almostFull f.data || P.eod.almostFull f.eod

/-- `Packet` -/
def packet : Bool := !P.eod.empty f.eod

/-- `TXo` -/
def txo : Dbus := P.data.q f.data

/-- An edge of the clock of the writer. -/
def write : TxFifo P :=
  { f with
    data := P.data.write f.data w.wrReq w.txi
    eod := P.eod.write f.eod (w.wrReq && w.txi.eod) 0 }

/-- An edge of the clock of the reader. -/
def read : TxFifo P where
  data := P.data.read f.data (f.rdReqIntern rdReq)
  eod := P.eod.read f.eod packetRdReq
  validIntern := reg1En (!P.data.empty f.data) (f.rdReqIntern rdReq) f.validIntern
  packetsDone := if f.packet then false else if f.txo.eod then true else f.packetsDone

/-- **One cycle** of one stream. -/
def step : TxFifo P := run write (f.read i.rdReq i.packetRdReq) i.writes

/-- The words that have not been read. -/
def pending : List Dbus := P.data.pending f.data f.validIntern

end TxFifo

/-- `txfifos` and `TxStreamSel`. -/
structure TxStreams (P : TxFifoPair) where
  sel : TxStreamSel
  fifos : Fin numUdpPrts → TxFifo P

/-- The inputs of a cycle: those of the writers, and of `tx_data2buf`. -/
structure TxStreamsInput where
  writes : Fin numUdpPrts → List TxWrite
  connectReq : Bool
  rdReqIn : Bool

namespace TxStreams

variable (s : TxStreams P) (c : TxStreamsInput)

/-- The state after a reset. -/
def reset : TxStreams P where
  sel := TxStreamSel.reset
  fifos k := (s.fifos k).reset

/-- What `TxStreamSel` sees. -/
def selInput : TxStreamInput where
  packet k := (s.fifos k).packet
  connectReq := c.connectReq
  rdReqIn := c.rdReqIn
  txi k := (s.fifos k).txo
  validIn k := (s.fifos k).validIntern

/-- What the FIFOs of a stream see. -/
def fifoInput (k : Fin numUdpPrts) : TxFifoInput where
  rdReq := s.sel.rdReqOut k
  packetRdReq := s.sel.packetRdReq k
  writes := c.writes k

/-- One cycle. -/
def step : TxStreams P where
  sel := s.sel.step (s.selInput c)
  fifos k := (s.fifos k).step (s.fifoInput c k)

/-! ## What is written and what is read -/

/-- The words a cycle writes to a stream. -/
def written (k : Fin numUdpPrts) (c : TxStreams P × TxStreamsInput) : List Dbus :=
  (c.2.writes k).filterMap TxWrite.word

/-- **The packets** completely written to a stream. -/
def packets (k : Fin numUdpPrts) (cycles : List (TxStreams P × TxStreamsInput)) :
    List (List Dbus) := segments Dbus.eod (cycles.flatMap (written k))

/-- How many packets of a stream have been selected. -/
def selected (k : Fin numUdpPrts) (cycles : List (TxStreams P × TxStreamsInput)) : ℕ :=
  cycles.countP fun c => c.1.sel.packetRdReq k

/-- The selected stream and the word in its output register, in the cycles
of one connection. -/
def connection (cycles : List (TxStreams P × TxStreamsInput)) : List (Fin numUdpPrts × Dbus) :=
  (cycles.takeWhile fun c => decide (c.1.sel.state = .readUntilEOP)).map fun c =>
    (c.1.sel.streamPointer, (c.1.fifos c.1.sel.streamPointer).txo)

/-- The edges of a writer in a cycle, each with what it finds. -/
def writeEdges (k : Fin numUdpPrts) (c : TxStreams P × TxStreamsInput) :
    List (TxFifo P × TxWrite) :=
  trace TxFifo.write ((c.1.fifos k).read (c.1.sel.rdReqOut k) (c.1.sel.packetRdReq k))
    (c.2.writes k)

/-- The writers respect `Full`. -/
def RespectFull (c : TxStreams P × TxStreamsInput) : Prop :=
  ∀ k, ∀ x ∈ writeEdges k c, x.2.wrReq = true → x.1.full = false

instance : DecidablePred (RespectFull (P := P)) := fun c =>
  inferInstanceAs (Decidable (∀ k, ∀ x ∈ writeEdges k c, x.2.wrReq = true → x.1.full = false))

end TxStreams

/-! ## One stream -/

namespace TxFifo

variable {gone ws : List Dbus} {n : ℕ} {ph ph' : Phase} {f : TxFifo P} {rdReq packetRdReq : Bool}
  {w : TxWrite}

/-- The word that is taken from the output register. -/
def taken (f : TxFifo P) (rdReq : Bool) : List Dbus :=
  if f.validIntern && rdReq then [f.txo] else []

/-- There is room for a word in both FIFOs. -/
structure Room (f : TxFifo P) : Prop where
  data : (P.data.written f.data).length < P.data.freed f.data + fifoSize
  eod : (P.eod.written f.eod).length < P.eod.freed f.eod + fifoSize

/-- As many edges of the writer after `Full` was down, the FIFOs have no more
words than this. -/
structure Lagging (n : ℕ) (f : TxFifo P) : Prop where
  data : (P.data.written f.data).length <
    P.data.freed f.data + fullThreshold + P.data.slack + n
  eod : (P.eod.written f.eod).length < P.eod.freed f.eod + fullThreshold + P.eod.slack + n

theorem lagging_of_full (h : f.full = false) : f.Lagging 0 := by
  rw [full, Bool.or_eq_false_iff] at h
  exact ⟨P.data.lt_of_almostFull _ h.1, P.eod.lt_of_almostFull _ h.2⟩

theorem Lagging.read (h : f.Lagging n) : (f.read rdReq packetRdReq).Lagging n := by
  have hdata := P.data.freed_mono f.data (.read (f.rdReqIntern rdReq))
  have heod := P.eod.freed_mono f.eod (.read packetRdReq)
  refine ⟨?_, ?_⟩
  · have hwritten := P.data.written_read f.data (f.rdReqIntern rdReq)
    have hlt := h.data
    simp only [TxFifo.read, AsyncFifo.read, hwritten]
    omega
  · have hwritten := P.eod.written_read f.eod packetRdReq
    have hlt := h.eod
    simp only [TxFifo.read, AsyncFifo.read, hwritten]
    omega

theorem Lagging.write (h : f.Lagging n) : (f.write w).Lagging (n + 1) :=
  ⟨AsyncFifo.length_written_write_lt h.data, AsyncFifo.length_written_write_lt h.eod⟩

/-- Within the lag there is room. -/
theorem Lagging.room (h : f.Lagging n) (hn : n ≤ P.lag) : f.Room := by
  have hdata := h.data
  have heod := h.eod
  have hslack := P.slack_data
  have hslack' := P.slack_eod
  rw [TxFifoPair.lag] at hn
  exact ⟨by omega, by omega⟩

/-- While `Full` is down there is room. -/
theorem room_of_full (h : f.full = false) : f.Room :=
  (lagging_of_full h).room (Nat.zero_le _)

/-- **No more than some edges** before the last one `Full` was down. -/
def Within (lag : ℕ) (edges : List (TxFifo P × TxWrite)) : Prop :=
  ∃ pre y mid, edges = pre ++ y :: mid ∧ mid.length ≤ lag ∧ y.1.full = false

/-- What the edges of the writer by some time tell of the FIFOs. -/
def Tracked (edges : List (TxFifo P × TxWrite)) (f : TxFifo P) : Prop :=
  ∀ pre y mid, edges = pre ++ y :: mid → y.1.full = false → f.Lagging (mid.length + 1)

section Tracked

variable {edges : List (TxFifo P × TxWrite)}

theorem tracked_nil : Tracked [] f := by
  intro pre y mid h
  cases pre <;> cases h

theorem Tracked.read (h : Tracked edges f) : Tracked edges (f.read rdReq packetRdReq) :=
  fun pre y mid heq hfull => (h pre y mid heq hfull).read

/-- One more edge: it is the last one, or one of those before. -/
theorem last_or_before {pre mid : List (TxFifo P × TxWrite)} {y : TxFifo P × TxWrite}
    (h : edges ++ [(f, w)] = pre ++ y :: mid) :
    y = (f, w) ∧ mid = [] ∨ ∃ mid', edges = pre ++ y :: mid' ∧ mid.length = mid'.length + 1 := by
  rcases List.eq_nil_or_concat mid with rfl | ⟨mid', z, rfl⟩
  · exact Or.inl ⟨(List.singleton_inj.1 (List.append_inj' h rfl).2).symm, rfl⟩
  · refine Or.inr ⟨mid', ?_, List.length_concat⟩
    rw [List.concat_eq_append, ← List.cons_append, ← List.append_assoc] at h
    exact (List.append_inj' h rfl).1

theorem Tracked.write (h : Tracked edges f) : Tracked (edges ++ [(f, w)]) (f.write w) := by
  intro pre y mid heq hfull
  rcases last_or_before heq with ⟨rfl, rfl⟩ | ⟨mid', heq', hlength⟩
  · exact (lagging_of_full hfull).write
  · rw [hlength]
    exact (h pre y mid' heq' hfull).write

theorem Tracked.room (h : Tracked edges f) (hlag : Within P.lag (edges ++ [(f, w)])) :
    f.Room := by
  obtain ⟨pre, y, mid, heq, hle, hfull⟩ := hlag
  rcases last_or_before heq with ⟨rfl, rfl⟩ | ⟨mid', heq', hlength⟩
  · exact room_of_full hfull
  · exact (h pre y mid' heq' hfull).room (by omega)

/-- **A writer that does not lag too long finds room.** -/
theorem Tracked.writes {writes : List TxWrite} (h : Tracked edges f)
    (hlag : ∀ pre x, pre ++ [x] <+: trace TxFifo.write f writes → x.2.wrReq = true →
      Within P.lag (edges ++ (pre ++ [x]))) :
    Tracked (edges ++ trace TxFifo.write f writes) (run TxFifo.write f writes) ∧
      ∀ x ∈ trace TxFifo.write f writes, x.2.wrReq = true → x.1.Room := by
  induction writes generalizing edges f with
  | nil =>
    refine ⟨?_, fun x hx => by cases hx⟩
    rw [trace, List.append_nil]
    exact h
  | cons w writes ih =>
    obtain ⟨htracked, hrooms⟩ := ih (h.write (w := w)) fun pre x hpre hw => by
      rw [List.append_assoc]
      exact hlag ((f, w) :: pre) x ((List.prefix_cons_inj (f, w)).2 hpre) hw
    refine ⟨?_, List.forall_mem_cons.2 ⟨fun hw => h.room (w := w) ?_, hrooms⟩⟩
    · rw [List.append_assoc] at htracked
      exact htracked
    · exact hlag [] (f, w) ⟨_, rfl⟩ hw

end Tracked

/-- The edges of the second FIFO in a cycle. -/
def eodEdges (i : TxFifoInput) : List (FifoEdge (BitVec 1)) :=
  .read i.packetRdReq :: i.writes.map fun w => .write (w.wrReq && w.txi.eod) 0

theorem eod_step {i : TxFifoInput} :
    (f.step i).eod = (eodEdges i).foldl P.eod.step f.eod := by
  have hwrites : ∀ (f : TxFifo P) (writes : List TxWrite), (run TxFifo.write f writes).eod =
      (writes.map fun w => FifoEdge.write (w.wrReq && w.txi.eod) 0).foldl P.eod.step f.eod := by
    intro f writes
    induction writes generalizing f with
    | nil => rfl
    | cons w writes ih => exact ih _
  exact hwrites _ _

theorem countP_isRead_eodEdges (i : TxFifoInput) :
    (eodEdges i).countP FifoEdge.isRead = 1 := by
  have hnone : (i.writes.map fun w => FifoEdge.write (w.wrReq && w.txi.eod)
      (0 : BitVec 1)).countP FifoEdge.isRead = 0 := by
    rw [List.countP_eq_zero]
    intro e he
    obtain ⟨w, -, rfl⟩ := List.mem_map.1 he
    exact Bool.false_ne_true
  rw [eodEdges, List.countP_cons_of_pos rfl, hnone]

/-- Where nothing is written there is nothing more to select. -/
theorem written_eod_step {i : TxFifoInput} (h : ∀ w ∈ i.writes, w.wrReq = false) :
    P.eod.written (f.step i).eod = P.eod.written f.eod := by
  have hwrites : ∀ (e : P.eod.State) (writes : List TxWrite), (∀ w ∈ writes, w.wrReq = false) →
      P.eod.written ((writes.map fun w => FifoEdge.write (w.wrReq && w.txi.eod) 0).foldl
        P.eod.step e) = P.eod.written e := by
    intro e writes hnone
    induction writes generalizing e with
    | nil => rfl
    | cons w writes ih =>
      obtain ⟨hnow, hrest⟩ := List.forall_mem_cons.1 hnone
      rw [List.map_cons, List.foldl_cons, ih _ hrest, P.eod.written_write, hnow, Bool.false_and,
        Bool.false_and, if_neg Bool.false_ne_true, List.append_nil]
  rw [eod_step, eodEdges, List.foldl_cons, hwrites _ _ h, P.eod.written_read]

/-- **The invariant** of one stream: the words taken are whole packets,
but for the packet that is read; its second FIFO counts the packets that
are still to be selected; and a selected packet is there and is shown. -/
structure Kept (gone ws : List Dbus) (n : ℕ) (ph : Phase) (f : TxFifo P) : Prop where
  written : ws = gone ++ f.pending
  data : P.data.written f.data = ws
  eod : (P.eod.written f.eod).length = ws.countP Dbus.eod
  inStep : P.InStep f.data f.eod
  whole : ph ≠ .reading → Whole Dbus.eod gone
  selected : n = gone.countP Dbus.eod + ph.holds
  taken : P.eod.taken f.eod = n
  chosen : ph = .chosen → n < P.eod.seen f.eod
  shown : n + (if ph = .chosen then 1 else 0) ≤ (ws.take (P.data.seen f.data)).countP Dbus.eod
  valid : ph = .held ∨ ph = .reading → f.validIntern = true

theorem kept_reset (f : TxFifo P) : Kept [] [] 0 .away f.reset where
  written := (AsyncFifo.held_reset (F := P.data)).symm
  data := P.data.written_reset _
  eod := by
    rw [reset, P.eod.written_reset]
    rfl
  inStep := P.inStep_reset _ _
  whole _ := whole_nil
  selected := rfl
  taken := by
    have hle := AsyncFifo.taken_le_length (F := P.eod) (s := P.eod.reset f.eod)
    rw [P.eod.written_reset] at hle
    exact Nat.le_zero.1 hle
  chosen h := by cases h
  shown := Nat.zero_le _
  valid h := by rcases h with h | h <;> cases h

/-! ### An edge of the writer -/

/-- **An edge of the writer keeps the invariant.** -/
theorem Kept.write (h : Kept gone ws n ph f) (hroom : w.wrReq = true → f.Room) :
    Kept gone (ws ++ w.word.toList) n ph (f.write w) := by
  have hdata : P.data.added f.data w.wrReq w.txi = w.word.toList := by
    rw [AsyncFifo.added_of_lt fun hw => (hroom hw).data, TxWrite.word]
    split <;> rfl
  have heod : P.eod.added f.eod (w.wrReq && w.txi.eod) 0 =
      if w.wrReq && w.txi.eod then [0] else [] :=
    AsyncFifo.added_of_lt fun hw => (hroom (Bool.and_eq_true_iff.1 hw).1).eod
  have hseen : P.data.seen f.data ≤ P.data.seen (f.write w).data := P.data.seen_mono _ _
  have hnotFull : w.wrReq = true → P.data.full f.data = false ∧ P.eod.full f.eod = false :=
    fun hw => ⟨P.data.full_of_lt _ (hroom hw).data, P.eod.full_of_lt _ (hroom hw).eod⟩
  refine ⟨?_, ?_, ?_, P.inStep_write _ _ _ _ h.inStep hnotFull, h.whole, h.selected, ?_, ?_, ?_,
    h.valid⟩
  · have hpending : (f.write w).pending = f.pending ++ w.word.toList := by
      rw [← hdata]
      exact AsyncFifo.pending_write
    rw [hpending, ← List.append_assoc, ← h.written]
  · rw [← hdata, ← h.data]
    exact P.data.written_write _ _ _
  · have hwritten : P.eod.written (f.write w).eod = P.eod.written f.eod ++
        P.eod.added f.eod (w.wrReq && w.txi.eod) 0 := P.eod.written_write _ _ _
    rw [hwritten, heod, List.length_append, List.countP_append, h.eod, TxWrite.word]
    cases w.wrReq <;> cases hx : w.txi.eod <;> simp [hx]
  · rw [← h.taken]
    exact P.eod.taken_write _ _ _
  · intro hph
    exact (h.chosen hph).trans_le (P.eod.seen_mono _ _)
  · exact h.shown.trans (countP_take_le hseen)

theorem Kept.writes {writes : List TxWrite} (h : Kept gone ws n ph f)
    (hroom : ∀ x ∈ trace TxFifo.write f writes, x.2.wrReq = true → x.1.Room) :
    Kept gone (ws ++ writes.filterMap TxWrite.word) n ph (run TxFifo.write f writes) := by
  induction writes generalizing ws f with
  | nil =>
    rw [List.filterMap_nil, List.append_nil]
    exact h
  | cons w writes ih =>
    obtain ⟨hnow, hrest⟩ := List.forall_mem_cons.1 hroom
    have hword : (w :: writes).filterMap TxWrite.word =
        w.word.toList ++ writes.filterMap TxWrite.word := by
      rw [List.filterMap_cons]
      cases w.word <;> rfl
    rw [hword, ← List.append_assoc]
    exact ih (h.write hnow) hrest

/-! ### An edge of the reader -/

/-- **Every word is kept once**, until it is taken. -/
theorem pending_read : f.taken rdReq ++ (f.read rdReq packetRdReq).pending = f.pending :=
  AsyncFifo.pending_read f.validIntern rdReq

theorem packet_iff : f.packet = true ↔ P.eod.taken f.eod < P.eod.seen f.eod := by
  rw [packet, P.eod.empty_eq, Bool.not_eq_true', decide_eq_false_iff_not, Nat.not_le]

/-- The register stays valid if it is not read, -/
theorem valid_read_of_not (hv : f.validIntern = true) :
    (f.read false packetRdReq).validIntern = true := by
  rw [read, reg1En, rdReqIntern, hv]
  rfl

/-- and it is valid if a word is shown. -/
theorem valid_read_of_lt (h : P.data.taken f.data < P.data.seen f.data) :
    (f.read rdReq packetRdReq).validIntern = true := by
  have hempty : P.data.empty f.data = false := by
    rw [P.data.empty_eq, decide_eq_false_iff_not]
    omega
  rw [read, reg1En, hempty]
  cases hv : f.validIntern with
  | true => split <;> rfl
  | false => rw [rdReqIntern, hv]; rfl

/-- A valid register holds the first of the words not read. -/
theorem pending_of_valid (h : f.validIntern = true) : f.pending = f.txo :: P.data.held f.data := by
  rw [pending, AsyncFifo.pending, h, if_pos rfl]
  rfl

theorem taken_of_reading (h : f.validIntern = true) : f.taken true = [f.txo] := by
  rw [taken, h]
  rfl

theorem taken_of_not : f.taken false = [] := by
  rw [taken, Bool.and_false]
  rfl

/-- While a packet is read, what is taken is the word in the register. -/
theorem Kept.taken_eq (h : Kept gone ws n ph f) (hread : rdReq = decide (ph = .reading)) :
    f.taken rdReq = if ph = .reading then [f.txo] else [] := by
  split
  · rename_i hph
    rw [hread, decide_eq_true hph]
    exact taken_of_reading (h.valid (.inr hph))
  · rename_i hph
    rw [hread, decide_eq_false hph]
    exact taken_of_not

/-- What has come into the register or went. -/
theorem Kept.take_taken (h : Kept gone ws n ph f) : ws.take (P.data.taken f.data) =
    gone ++ if f.validIntern then [f.txo] else [] := by
  have hwritten := h.written
  rw [pending, AsyncFifo.pending, AsyncFifo.held, h.data, ← List.append_assoc] at hwritten
  have hsplit := List.take_append_drop (P.data.taken f.data) ws
  exact List.append_cancel_right (hsplit.trans hwritten)

/-- A word is shown as long as an end of data is behind what went. -/
theorem Kept.taken_lt (h : Kept gone ws n ph f)
    (hlt : (gone ++ if f.validIntern then [f.txo] else []).countP Dbus.eod <
      (ws.take (P.data.seen f.data)).countP Dbus.eod) :
    P.data.taken f.data < P.data.seen f.data := by
  by_contra hle
  have hless : (ws.take (P.data.seen f.data)).countP Dbus.eod ≤
      ((ws ++ []).take (P.data.taken f.data)).countP Dbus.eod :=
    countP_take_le (Nat.not_lt.1 hle)
  rw [List.append_nil, h.take_taken] at hless
  omega

/-- **The balance** of an edge: what is selected is held until its end of
data is taken. -/
theorem Kept.balance (h : Kept gone ws n ph f) (hnext : Phase.Next f.packet f.txo.eod ph ph')
    (hread : rdReq = decide (ph = .reading)) (hpulse : packetRdReq = decide (ph = .chosen)) :
    (f.taken rdReq).countP Dbus.eod + ph'.holds = ph.holds + if packetRdReq then 1 else 0 := by
  rw [h.taken_eq hread, hpulse]
  cases hnext with
  | wait => rfl
  | choose _ => rfl
  | hold hph => rcases hph with rfl | rfl <;> rfl
  | opens hph => rcases hph with rfl | rfl <;> rfl
  | go heod => simp [heod, Phase.holds]
  | done heod => simp [heod, Phase.holds]

/-- A word is at the output whenever a stream is or comes to be read. -/
theorem Kept.valid_next (h : Kept gone ws n ph f) (hnext : Phase.Next f.packet f.txo.eod ph ph')
    (hread : rdReq = decide (ph = .reading)) (hph : ph' = .held ∨ ph' = .reading) :
    (f.read rdReq packetRdReq).validIntern = true := by
  have hselected := h.selected
  have hshown := h.shown
  -- a stream that was chosen has its end of data to come
  have hopen : ph = .chosen ∨ ph = .held → (f.read rdReq packetRdReq).validIntern = true := by
    intro hor
    rw [hread, decide_eq_false (Phase.ne_reading hor)]
    cases hv : f.validIntern with
    | true => exact valid_read_of_not hv
    | false =>
      rcases hor with rfl | rfl
      · refine valid_read_of_lt (h.taken_lt ?_)
        rw [Phase.holds, Nat.add_zero] at hselected
        rw [if_pos rfl] at hshown
        rw [hv, if_neg Bool.false_ne_true, List.append_nil]
        omega
      · rw [h.valid (.inl rfl)] at hv
        cases hv
  cases hnext with
  | wait => rcases hph with hph | hph <;> cases hph
  | choose _ => rcases hph with hph | hph <;> cases hph
  | done _ => rcases hph with hph | hph <;> cases hph
  | hold hor => exact hopen hor
  | opens hor => exact hopen hor
  | go hgo =>
    refine valid_read_of_lt (h.taken_lt ?_)
    rw [Phase.holds] at hselected
    rw [if_neg (by decide)] at hshown
    rw [h.valid (.inr rfl), if_pos rfl, List.countP_append, List.countP_singleton, hgo,
      if_neg Bool.false_ne_true]
    omega

/-- Whole packets are taken, but for the one that is being read. -/
theorem Kept.whole_next (h : Kept gone ws n ph f) (hnext : Phase.Next f.packet f.txo.eod ph ph')
    (hread : rdReq = decide (ph = .reading)) (hne : ph' ≠ .reading) :
    Whole Dbus.eod (gone ++ f.taken rdReq) := by
  have htaken := h.taken_eq hread
  have hkeep : ph ≠ .reading → Whole Dbus.eod (gone ++ f.taken rdReq) := by
    intro hph
    rw [htaken, if_neg hph, List.append_nil]
    exact h.whole hph
  cases hnext with
  | wait => exact hkeep (by decide)
  | choose _ => exact hkeep (by decide)
  | hold hor => exact hkeep (Phase.ne_reading hor)
  | opens _ => exact absurd rfl hne
  | go _ => exact absurd rfl hne
  | done hdone =>
    rw [htaken, if_pos rfl]
    exact whole_concat hdone

/-- What is selected after an edge was shown by the second FIFO before it. -/
theorem Kept.le_seen (h : Kept gone ws n ph f) (hnext : Phase.Next f.packet f.txo.eod ph ph')
    (hpulse : packetRdReq = decide (ph = .chosen)) :
    n + (if packetRdReq then 1 else 0) + (if ph' = .chosen then 1 else 0) ≤
      P.eod.seen f.eod := by
  have hle : n ≤ P.eod.seen f.eod := h.taken ▸ P.eod.taken_le f.eod
  subst hpulse
  cases hnext with
  | wait => exact hle
  | choose hpacket => exact h.taken ▸ packet_iff.1 hpacket
  | hold hor =>
    rcases hor with rfl | rfl
    · exact h.chosen rfl
    · exact hle
  | opens hor =>
    rcases hor with rfl | rfl
    · exact h.chosen rfl
    · exact hle
  | go _ => exact hle
  | done _ => exact hle

/-- **An edge of the reader keeps the invariant.** -/
theorem Kept.read (h : Kept gone ws n ph f) (hnext : Phase.Next f.packet f.txo.eod ph ph')
    (hread : rdReq = decide (ph = .reading)) (hpulse : packetRdReq = decide (ph = .chosen)) :
    Kept (gone ++ f.taken rdReq) ws (n + if packetRdReq then 1 else 0) ph'
      (f.read rdReq packetRdReq) := by
  have hbalance := h.balance hnext hread hpulse
  have hseen := h.le_seen hnext hpulse
  have hdata : P.data.written (f.read rdReq packetRdReq).data = P.data.written f.data :=
    P.data.written_read _ _
  have heod : P.eod.written (f.read rdReq packetRdReq).eod = P.eod.written f.eod :=
    P.eod.written_read _ _
  refine ⟨?_, hdata.trans h.data, (congrArg _ heod).trans h.eod, P.inStep_read _ _ _ _ h.inStep,
    h.whole_next hnext hread, ?_, ?_, fun hph => ?_, ?_, h.valid_next hnext hread⟩
  · rw [List.append_assoc, pending_read]
    exact h.written
  · rw [List.countP_append, h.selected]
    omega
  · -- a pulse finds an entry to read
    have htaken := P.eod.taken_read f.eod packetRdReq
    have hyes : (packetRdReq && !P.eod.empty f.eod) = packetRdReq := by
      cases hp : packetRdReq with
      | false => rfl
      | true =>
        rw [hp] at hpulse
        have hpacket := packet_iff.2 (h.taken ▸ h.chosen (of_decide_eq_true hpulse.symm))
        exact hpacket
    rw [hyes, h.taken] at htaken
    exact htaken
  · rw [if_pos hph] at hseen
    exact Nat.lt_of_lt_of_le hseen (P.eod.seen_mono _ _)
  · have hcount : (P.eod.written f.eod).length = (P.data.written f.data).countP Dbus.eod := by
      rw [h.eod, h.data]
    have hlaw := P.seen_le f.data f.eod (f.rdReqIntern rdReq) h.inStep hcount
    rw [h.data] at hlaw
    exact hseen.trans hlaw

/-- **One cycle keeps the invariant.** -/
theorem Kept.step {i : TxFifoInput} (h : Kept gone ws n ph f)
    (hnext : Phase.Next f.packet f.txo.eod ph ph')
    (hroom : ∀ x ∈ trace TxFifo.write (f.read i.rdReq i.packetRdReq) i.writes,
      x.2.wrReq = true → x.1.Room)
    (hread : i.rdReq = decide (ph = .reading)) (hpulse : i.packetRdReq = decide (ph = .chosen)) :
    Kept (gone ++ f.taken i.rdReq) (ws ++ i.writes.filterMap TxWrite.word)
      (n + if i.packetRdReq then 1 else 0) ph' (f.step i) :=
  (h.read hnext hread hpulse).writes hroom

/-- The packets that are still to be selected. -/
theorem Kept.length_held (h : Kept gone ws n ph f) :
    (P.eod.held f.eod).length + n = ws.countP Dbus.eod := by
  have hle := AsyncFifo.taken_le_length (F := P.eod) (s := f.eod)
  rw [AsyncFifo.held, List.length_drop, ← h.eod, ← h.taken]
  omega

/-- What is still to be taken of the packets that are selected, and the others. -/
theorem Kept.countP_pending (h : Kept gone ws n ph f) :
    (P.eod.held f.eod).length + ph.holds = f.pending.countP Dbus.eod := by
  have hheld := h.length_held
  have hselected := h.selected
  rw [h.written, List.countP_append] at hheld
  omega

end TxFifo

/-! ## The streams together -/

namespace TxStreams

open TxStreamSel

variable {s : TxStreams P} {cs conn : List TxStreamsInput} {k : Fin numUdpPrts}

theorem selected_append {l l' : List (TxStreams P × TxStreamsInput)} :
    selected k (l ++ l') = selected k l + selected k l' := List.countP_append

theorem pulsed_run : (run step s.reset cs).sel.Pulsed :=
  run_invariant (p := fun s : TxStreams P => s.sel.Pulsed) pulsed_reset fun _ _ h => h.step

/-- One cycle of a stream. -/
theorem kept_step {gone ws : List Dbus} {n : ℕ} {c : TxStreamsInput}
    (h : TxFifo.Kept gone ws n (s.sel.phase k) (s.fifos k)) (hpulsed : s.sel.Pulsed)
    (hroom : ∀ x ∈ writeEdges k (s, c), x.2.wrReq = true → x.1.Room) :
    TxFifo.Kept (gone ++ (s.fifos k).taken (s.sel.rdReqOut k)) (ws ++ written k (s, c))
      (n + if s.sel.packetRdReq k then 1 else 0) ((s.step c).sel.phase k) ((s.step c).fifos k) :=
  h.step (i := s.fifoInput c k) (phase_step _ (s.selInput c) k) hroom rdReqOut_eq
    (packetRdReq_eq hpulsed)

/-- One more cycle of a run. -/
theorem kept_concat {gone : List Dbus} {c : TxStreamsInput}
    (h : TxFifo.Kept gone ((trace step s.reset cs).flatMap (written k))
      (selected k (trace step s.reset cs)) ((run step s.reset cs).sel.phase k)
      ((run step s.reset cs).fifos k))
    (hfull : RespectFull (run step s.reset cs, c)) :
    TxFifo.Kept
      (gone ++ ((run step s.reset cs).fifos k).taken ((run step s.reset cs).sel.rdReqOut k))
      ((trace step s.reset (cs ++ [c])).flatMap (written k))
      (selected k (trace step s.reset (cs ++ [c]))) ((run step s.reset (cs ++ [c])).sel.phase k)
      ((run step s.reset (cs ++ [c])).fifos k) := by
  have hstep := kept_step h pulsed_run fun x hx hw => TxFifo.room_of_full (hfull k x hx hw)
  have hselected : selected k [(run step s.reset cs, c)] =
      if (run step s.reset cs).sel.packetRdReq k then 1 else 0 := by
    rw [selected, List.countP_singleton]
  have hlast : trace step (run step s.reset cs) [c] = [(run step s.reset cs, c)] := rfl
  rw [trace_append, hlast, List.flatMap_append, List.flatMap_singleton, selected_append, hselected,
    run_append]
  exact hstep

/-- **Every stream is kept**, in any run from a reset in which the writers
respect `Full`. -/
theorem kept_run (h : ∀ c ∈ trace step s.reset cs, RespectFull c) (k : Fin numUdpPrts) :
    ∃ gone, TxFifo.Kept gone ((trace step s.reset cs).flatMap (written k))
      (selected k (trace step s.reset cs)) ((run step s.reset cs).sel.phase k)
      ((run step s.reset cs).fifos k) := by
  induction cs using List.reverseRecOn with
  | nil =>
    have haway : (s.reset).sel.phase k = .away := phase_away (.inl rfl)
    refine ⟨[], ?_⟩
    rw [run_nil, haway]
    exact TxFifo.kept_reset _
  | append_singleton cs c ih =>
    rw [trace_append, List.forall_mem_append] at h
    obtain ⟨gone, hkept⟩ := ih h.1
    exact ⟨_, kept_concat hkept (h.2 _ List.mem_cons_self)⟩

/-- The valid register of the stream that is read. -/
theorem validIntern_of_reading (h : ∀ c ∈ trace step s.reset cs, RespectFull c)
    (hs : (run step s.reset cs).sel.state = .readUntilEOP) :
    ((run step s.reset cs).fifos (run step s.reset cs).sel.streamPointer).validIntern = true := by
  obtain ⟨_, hkept⟩ := kept_run h (run step s.reset cs).sel.streamPointer
  exact hkept.valid (.inr (phase_eq_reading.2 ⟨hs, rfl⟩))

theorem connection_of_ne {l : List (TxStreams P × TxStreamsInput)}
    {c : TxStreams P × TxStreamsInput} (hs : c.1.sel.state ≠ .readUntilEOP) :
    connection (c :: l) = [] := by
  rw [connection, List.takeWhile_cons_of_neg (by simpa using hs), List.map_nil]

theorem connection_of_reading {l : List (TxStreams P × TxStreamsInput)}
    {c : TxStreams P × TxStreamsInput} (hs : c.1.sel.phase k = .reading) :
    connection (c :: l) = (k, (c.1.fifos k).txo) :: connection l := by
  obtain ⟨hstate, hptr⟩ := phase_eq_reading.1 hs
  rw [connection, List.takeWhile_cons_of_pos (by simpa using hstate), List.map_cons, hptr]
  rfl

/-- **A connection reads on to the end of its packet**, and no further. -/
theorem connection_eq_take {gone ws : List Dbus} {n : ℕ} {p rest : List Dbus}
    (hp : IsSegment Dbus.eod p) (hkept : TxFifo.Kept gone ws n (s.sel.phase k) (s.fifos k))
    (hpulsed : s.sel.Pulsed) (hfull : ∀ c ∈ trace step s conn, RespectFull c)
    (hs : s.sel.phase k = .reading) (hpend : (s.fifos k).pending = p ++ rest) :
    connection (trace step s conn) = (p.take conn.length).map (Prod.mk k) := by
  -- along the connection, while the packet is used up from the front
  induction conn generalizing s gone ws n p rest with
  | nil => rfl
  | cons c conn ih =>
    obtain ⟨hnow, hrest⟩ := List.forall_mem_cons.1 hfull
    have hreg := TxFifo.pending_of_valid (hkept.valid (.inr hs))
    have hnext := phase_step s.sel (s.selInput c) k
    have hstep := kept_step hkept hpulsed fun x hx hw => TxFifo.room_of_full (hnow k x hx hw)
    have htaken : (s.fifos k).taken (s.sel.rdReqOut k) = [(s.fifos k).txo] := by
      rw [hkept.taken_eq rdReqOut_eq, if_pos hs]
    rw [hs] at hnext
    rw [trace, connection_of_reading hs]
    cases hp with
    | @last a ha =>
      -- the last word: the next cycle reads no more
      have htxo : (s.fifos k).txo = a := by
        rw [hreg, List.singleton_append, List.cons.injEq] at hpend
        exact hpend.1
      have hidle : (s.step c).sel.state = .idle :=
        state_step_of_eod (phase_eq_reading.1 hs).1
          (by rw [(phase_eq_reading.1 hs).2]; exact (congrArg Dbus.eod htxo).trans ha)
      have hdone : connection (trace step (s.step c) conn) = [] := by
        cases conn with
        | nil => rfl
        | cons c' conn => exact connection_of_ne (by rw [hidle]; decide)
      rw [hdone, htxo]
      simp
    | @cons a p ha hp =>
      have hpending := hstep.written
      rw [hkept.written, htaken, hpend] at hpending
      rw [hreg, List.cons_append, List.cons.injEq] at hpend
      have htxo := hpend.1
      rw [htxo] at hpending
      have hmore : ((s.step c).fifos k).pending = p ++ (rest ++ written k (s, c)) := by
        simpa using hpending.symm
      have hgo : (s.step c).sel.phase k = .reading :=
        hnext.reading_of_eod ((congrArg Dbus.eod htxo).trans ha)
      rw [ih hp hstep hpulsed.step hrest hgo hmore, htxo, List.length_cons, List.take_succ_cons,
        List.map_cons]

/-- The words of a connection are those of the next packet of its stream. -/
theorem connection_of_opened {pre conn : List TxStreamsInput} {c : TxStreamsInput}
    (h : ∀ x ∈ trace step s.reset (pre ++ c :: conn), RespectFull x)
    (hnot : (run step s.reset pre).sel.state ≠ .readUntilEOP)
    (hs : (run step s.reset (pre ++ [c])).sel.state = .readUntilEOP) :
    ∃ k m p, selected k (trace step s.reset (pre ++ [c])) = m + 1 ∧
      (packets k (trace step s.reset (pre ++ [c])))[m]? = some p ∧ IsSegment Dbus.eod p ∧
      connection (trace step (run step s.reset (pre ++ [c])) conn) =
        (p.take conn.length).map (Prod.mk k) := by
  rw [List.append_cons, trace_append, List.forall_mem_append, trace_append,
    List.forall_mem_append] at h
  obtain ⟨⟨hpre, hlast⟩, hconn⟩ := h
  obtain ⟨k, hk⟩ : ∃ k, (run step s.reset (pre ++ [c])).sel.streamPointer = k := ⟨_, rfl⟩
  have hphase : (run step s.reset (pre ++ [c])).sel.phase k = .reading :=
    phase_eq_reading.2 ⟨hs, hk⟩
  -- what is taken before the connection is whole
  have hne : (run step s.reset pre).sel.phase k ≠ .reading :=
    fun heq => hnot (phase_eq_reading.1 heq).1
  obtain ⟨gone, hbefore⟩ := kept_run hpre k
  have hwhole := hbefore.whole hne
  have hkept := kept_concat hbefore (hlast _ List.mem_cons_self)
  rw [hbefore.taken_eq rdReqOut_eq, if_neg hne, List.append_nil] at hkept
  have hselected := hkept.selected
  have hpending := hkept.countP_pending
  rw [hphase] at hselected hpending
  have hpos : 0 < ((run step s.reset (pre ++ [c])).fifos k).pending.countP Dbus.eod := by
    rw [← hpending]
    exact Nat.succ_pos _
  obtain ⟨p, rest, hp, hpend⟩ := exists_isSegment hpos
  refine ⟨k, gone.countP Dbus.eod, p, hselected, ?_, hp,
    connection_eq_take hp hkept pulsed_run hconn hphase hpend⟩
  rw [packets, hkept.written, hpend, getElem?_segments hwhole hp]

/-- **The bookkeeping of the stream FIFOs.** In every run from a reset in
which the writers respect `Full`, with FIFOs without delay: the second FIFO
of a stream holds as many entries as packets were written and not selected,
the selected stream is valid in every cycle that reads it, and the words of
one connection are those of one packet, the next of its stream, from the
first to the end of data. -/
theorem bookkeeping {s : TxStreams exactTxFifos}
    (h : ∀ c ∈ trace step s.reset cs, RespectFull c) :
    (∀ k, (exactTxFifos.eod.held ((run step s.reset cs).fifos k).eod).length +
        selected k (trace step s.reset cs) = (packets k (trace step s.reset cs)).length) ∧
    ((run step s.reset cs).sel.state = .readUntilEOP →
      ((run step s.reset cs).fifos (run step s.reset cs).sel.streamPointer).validIntern = true) ∧
    ∀ pre c conn, cs = pre ++ c :: conn →
      (run step s.reset pre).sel.state ≠ .readUntilEOP →
      (run step s.reset (pre ++ [c])).sel.state = .readUntilEOP →
      ∃ k m p, selected k (trace step s.reset (pre ++ [c])) = m + 1 ∧
        (packets k (trace step s.reset (pre ++ [c])))[m]? = some p ∧ IsSegment Dbus.eod p ∧
        connection (trace step (run step s.reset (pre ++ [c])) conn) =
          (p.take conn.length).map (Prod.mk k) := by
  refine ⟨fun k => ?_, validIntern_of_reading h, fun pre c conn hcs hnot hs => ?_⟩
  · obtain ⟨gone, hkept⟩ := kept_run h k
    rw [packets, length_segments]
    exact hkept.length_held
  · subst hcs
    exact connection_of_opened h hnot hs

/-! A packet of two words, with the end of data of an earlier packet still
in the register. -/

/-- The streams before a reset. -/
def sampleStreams (n : ℕ) : TxStreams (syncedTxFifos n) where
  sel := TxStreamSel.reset
  fifos _ := {
    data := AsyncFifo.Synced.filled [] { d := 0xDEAD, eod := true }
    eod := AsyncFifo.Synced.filled [] 0
    validIntern := true
    packetsDone := false }

/-- A cycle that writes to stream 1 or to none. -/
def sampleWrite (word : Option Dbus) (connectReq : Bool) : TxStreamsInput where
  writes k := [⟨decide (k = 1) && word.isSome, word.getD { d := 0, eod := false }⟩]
  connectReq := connectReq
  rdReqIn := true

/-- The FIFOs of one clock, from a reset. -/
def sampleReset : TxStreams exactTxFifos := (sampleStreams 0).reset

def samplePre : List TxStreamsInput :=
  [sampleWrite (some { d := 0xCAFE, eod := false }) true,
    sampleWrite (some { d := 0xBEEF, eod := true }) true, sampleWrite none true,
    sampleWrite none true]

theorem bookkeeping_sample : ∃ k m p,
    selected k (trace step sampleReset (samplePre ++ [sampleWrite none false])) = m + 1 ∧
    (packets k (trace step sampleReset (samplePre ++ [sampleWrite none false])))[m]? =
      some p ∧ IsSegment Dbus.eod p ∧
    connection (trace step (run step sampleReset (samplePre ++ [sampleWrite none false]))
      (List.replicate 3 (sampleWrite none true))) = (p.take 3).map (Prod.mk k) :=
  (bookkeeping (by decide : ∀ c ∈ trace step sampleReset
    (samplePre ++ sampleWrite none false :: List.replicate 3 (sampleWrite none true)),
      RespectFull c)).2.2 samplePre (sampleWrite none false) _ rfl (by decide) (by decide)

end TxStreams

end Ipmux

end WrCalibration
