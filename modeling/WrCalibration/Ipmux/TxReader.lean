import WrCalibration.Ipmux.PacketRing

/-!
# The packets on the fabric

`tx_pkt2mac` against any write side that keeps its promises: it commits
packets that stand in the buffer, and writes to the free space only. What
the MAC takes is then, whatever the pattern of its stalls, the frames of
the packets in their order, each in one cycle of `cyc`
(`sends_packets`). A stall takes the read address back while the output
of the buffer still shows the word in front of the one that is asked for,
so the invariant `Sending` says for each state which word the output shows,
and `Gone` how much of the frame has gone.
-/

namespace WrCalibration

namespace Ipmux

open Clocked GenericDpram

variable {ram : GenericDpram txPktBufAdrsize 17}

/-! ## Packets -/

/-- A packet of the transmit buffer. -/
structure TxPacket where
  words : List Word
  pos : 0 < words.length
  size : words.length ≤ maxReservPktBuf

/-- A word on the fabric: its address, and the data. -/
abbrev FabricWord := BitVec 2 × Word

/-- **The frame of a packet** on the fabric: the status word, and the
words. -/
def TxPacket.frame (wrf : WrFabric) (p : TxPacket) : List FabricWord :=
  (wrf.wrfStatus, 0x0204) :: p.words.map fun d => (wrf.wrfData, d)

/-- What packets look like in the buffer. -/
def packetWords (ps : List TxPacket) : List (BitVec 17) := ps.flatMap fun p => endMarked p.words

/-- The words that packets occupy. -/
def occupied (ps : List TxPacket) : ℕ := (packetWords ps).length

section Packets

variable {wrf : WrFabric} {p : TxPacket} {ps ps' : List TxPacket} {k : ℕ} {w : BitVec 17}

@[simp] theorem packetWords_cons : packetWords (p :: ps) = endMarked p.words ++ packetWords ps :=
  List.flatMap_cons

@[simp] theorem packetWords_append :
    packetWords (ps ++ ps') = packetWords ps ++ packetWords ps' := List.flatMap_append

theorem packetWords_eq : packetWords ps = packed (ps.map TxPacket.words) := by
  rw [packetWords, packed, List.flatMap_map]

@[simp] theorem occupied_nil : occupied [] = 0 := rfl

@[simp] theorem occupied_cons : occupied (p :: ps) = p.words.length + occupied ps := by
  rw [occupied, packetWords_cons, List.length_append, length_endMarked, occupied]

@[simp] theorem occupied_append : occupied (ps ++ ps') = occupied ps + occupied ps' := by
  rw [occupied, packetWords_append, List.length_append, occupied, occupied]

theorem TxPacket.length_frame : (p.frame wrf).length = p.words.length + 1 := by
  rw [TxPacket.frame, List.length_cons, List.length_map]

/-- **The next word of a frame** is the one the buffer shows. -/
theorem TxPacket.take_frame (h : (endMarked p.words)[k]? = some w) :
    (p.frame wrf).take (k + 1) ++ [(wrf.wrfData, packetData w)] = (p.frame wrf).take (k + 2) := by
  have hnext : (p.frame wrf)[k + 1]? = some (wrf.wrfData, packetData w) := by
    rw [TxPacket.frame, List.getElem?_cons_succ, List.getElem?_map, (getElem?_endMarked h).1]
    rfl
  conv_rhs => rw [List.take_add_one, hnext]
  rfl

end Packets

/-! ## The read side -/

/-- The inputs of a cycle: the stall of the MAC, the write port of the
buffer, and the packet that is committed. -/
structure TxReadInput where
  stall : Bool := false
  we : Bool := false
  wrAddr : BitVec txPktBufAdrsize := 0
  wrData : BitVec 17 := 0
  commit : Option TxPacket := none

/-- The reader and the buffer, with the pointer of the write side, and the
packets that are committed and not sent to their end. -/
structure TxReadSide (ram : GenericDpram txPktBufAdrsize 17) where
  mac : TxPkt2Mac
  buffer : ram.State
  pktWrPtr : BitVec txPktBufAdrsize
  pending : List TxPacket

namespace TxReadSide

variable (s : TxReadSide ram) (c : TxReadInput)

/-- `Empty` -/
def empty : Bool := PktBufFlags.empty s.mac.pktRdPtr s.pktWrPtr

/-- The reader after an edge. -/
def macNext : TxPkt2Mac := s.mac.step s.empty (packetEop (ram.qb s.buffer)) c.stall

/-- A packet is sent to its end. -/
def finishes : Bool := decide (s.mac.state = .frame ∧ (s.macNext c).state = .endCycle)

/-- What is left of the packets. -/
def left : List TxPacket := if s.finishes c then s.pending.tail else s.pending

/-- One clock edge. -/
def step : TxReadSide ram where
  mac := s.macNext c
  buffer := ram.step s.buffer c.we c.wrAddr c.wrData s.mac.rdAddr
  pktWrPtr := s.pktWrPtr + BitVec.ofNat txPktBufAdrsize (occupied c.commit.toList)
  pending := s.left c ++ c.commit.toList

/-- A reader that waits, with packets in the buffer from its pointer on. -/
def start (buffer : ram.State) (base : BitVec txPktBufAdrsize) (ps : List TxPacket) :
    TxReadSide ram where
  mac := { TxPkt2Mac.reset with pktPtr := base }
  buffer := buffer
  pktWrPtr := base + BitVec.ofNat txPktBufAdrsize (occupied ps)
  pending := ps

/-- **What the write side promises**: it writes to the free space, from
`PktWrPtr` on, and a packet it commits stands there and does not fill the
ring. -/
structure Supplied (x : TxReadSide ram × TxReadInput) : Prop where
  write : x.2.we = true → ∃ off, occupied x.1.pending + off < 2 ^ txPktBufAdrsize ∧
    x.2.wrAddr = x.1.pktWrPtr + BitVec.ofNat txPktBufAdrsize off
  commit : ∀ p ∈ x.2.commit, occupied x.1.pending + p.words.length < 2 ^ txPktBufAdrsize ∧
    ram.Holds (x.1.step x.2).buffer x.1.pktWrPtr 0 (endMarked p.words)

end TxReadSide

/-! ## What is on the fabric -/

/-- The word that the MAC takes. -/
def SrcOutput.transfer (o : SrcOutput) (stall : Bool) : Option FabricWord :=
  if o.stb && !stall then some (o.adr, o.dat) else none

/-- **The cycles of `cyc`**, each as the words the MAC took in it: those
that are over, and the one that is on. -/
structure Bursts where
  done : List (List FabricWord) := []
  current : Option (List FabricWord) := none

namespace Bursts

variable (b : Bursts)

/-- The cycles of `cyc` after a clock cycle. -/
def step (o : SrcOutput) (stall : Bool) : Bursts :=
  if o.cyc then { b with current := some (b.current.getD [] ++ (o.transfer stall).toList) }
  else { done := b.done ++ b.current.toList }

def all : List (List FabricWord) := b.done ++ b.current.toList

end Bursts

namespace TxReadSide

variable (wrf : WrFabric) (x : TxReadSide ram × TxReadInput)
  (xs : List (TxReadSide ram × TxReadInput))

/-- `src_o` in a cycle. -/
def srcO : SrcOutput := x.1.mac.srcO wrf (packetData (ram.qb x.1.buffer))

/-- The words that the MAC takes. -/
def transfers : List FabricWord := xs.filterMap fun x => (srcO wrf x).transfer x.2.stall

/-- The cycles of `cyc`. -/
def bursts : Bursts := xs.foldl (fun b x => b.step (srcO wrf x) x.2.stall) {}

end TxReadSide

/-! ## The packets in the buffer -/

namespace TxReadSide

variable {s : TxReadSide ram} {c : TxReadInput}

/-- **The packets lie one behind the other**, from the pointer of the
reader to that of the write side. -/
def Laid (s : TxReadSide ram) : Prop :=
  PacketRing ram s.buffer s.mac.pktPtr s.pktWrPtr 0 (s.pending.map TxPacket.words) []

theorem laid_start {buffer : ram.State} {base : BitVec txPktBufAdrsize} {ps : List TxPacket}
    (hheld : ram.Holds buffer base 0 (packetWords ps))
    (hroom : occupied ps < 2 ^ txPktBufAdrsize) : Laid (start buffer base ps) := by
  rw [occupied, packetWords_eq] at hroom
  rw [packetWords_eq] at hheld
  refine ⟨?_, ?_, rfl, hroom⟩
  · rw [List.append_nil]
    exact hheld
  · rw [start, occupied, packetWords_eq]

/-- The packets do not fill the ring. -/
theorem Laid.room (h : Laid s) : occupied s.pending < 2 ^ txPktBufAdrsize := by
  rw [occupied, packetWords_eq]
  exact PacketRing.room h

/-- `Empty` is up when nothing is left to send. -/
theorem Laid.empty (h : Laid s) : s.empty = true ↔ s.pending = [] := by
  have hpos : ∀ p ∈ s.pending.map TxPacket.words, 0 < p.length := by
    intro p hp
    obtain ⟨p, -, rfl⟩ := List.mem_map.1 hp
    exact p.pos
  rw [TxReadSide.empty, TxPkt2Mac.pktRdPtr, PacketRing.empty_eq h hpos, decide_eq_true_eq,
    List.map_eq_nil_iff]

/-- Where a write goes. -/
theorem Supplied.free (hc : Supplied (s, c)) (hwe : c.we = true) :
    ∃ k, (packed (s.pending.map TxPacket.words)).length + ([] : List (BitVec 17)).length + k <
      2 ^ txPktBufAdrsize ∧ c.wrAddr = s.pktWrPtr + BitVec.ofNat txPktBufAdrsize (0 + k) := by
  obtain ⟨off, hoff, haddr⟩ := hc.write hwe
  rw [occupied, packetWords_eq] at hoff
  exact ⟨off, hoff, by rw [haddr, Nat.zero_add]⟩

/-- **The word that is asked for** is the next one of the first packet. -/
theorem Laid.word (h : Laid s) (hc : Supplied (s, c)) {p : TxPacket} {ps : List TxPacket}
    (hpending : s.pending = p :: ps) (hlt : s.mac.offset < p.words.length) :
    (endMarked p.words)[s.mac.offset]? = some (ram.qb (s.step c).buffer) := by
  have hmarked : s.mac.offset < (endMarked p.words).length := by rwa [length_endMarked]
  have hmiss : ¬ (c.we = true ∧ c.wrAddr = s.mac.rdAddr) := by
    rintro ⟨hwe, hhit⟩
    obtain ⟨k, hk, haddr⟩ := hc.free hwe
    refine PacketRing.ne_of_free h hk ?_ (hhit.symm.trans haddr)
    rw [hpending, List.append_nil, List.map_cons, length_packed_cons]
    omega
  have hheld : ram.Holds s.buffer s.mac.pktPtr 0 (endMarked p.words) := by
    rw [Laid, hpending] at h
    exact h.held_head
  rw [TxReadSide.step, ram.qb_step _ _ _ _ _ hmiss, List.getElem?_eq_getElem hmarked,
    ← hheld _ hmarked, Nat.zero_add]
  rfl

/-- **One edge** keeps the packets in their places, if the pointer of the
reader moves behind the packet that is sent to its end. -/
theorem Laid.step (h : Laid s) (hc : Supplied (s, c))
    (hptr : s.left c = s.pending ∧ (s.macNext c).pktPtr = s.mac.pktPtr ∨
      ∃ p, s.pending = p :: s.left c ∧ (s.macNext c).pktPtr =
        s.mac.pktPtr + BitVec.ofNat txPktBufAdrsize p.words.length) : Laid (s.step c) := by
  have hspared := PacketRing.spare h hc.free c.wrData s.mac.rdAddr
  have hleft : PacketRing ram (s.step c).buffer (s.macNext c).pktPtr s.pktWrPtr 0
      ((s.left c).map TxPacket.words) [] := by
    rcases hptr with ⟨hleft, hptr⟩ | ⟨p, hpending, hptr⟩
    · rw [hleft, hptr]
      exact hspared
    · rw [hpending, List.map_cons] at hspared
      rw [hptr]
      exact hspared.pop
  cases hcommit : c.commit with
  | none => simpa [Laid, TxReadSide.step, hcommit] using hleft
  | some p =>
    obtain ⟨hroom, hnew⟩ := hc.commit p hcommit
    have hopen := hleft.open_of_holds hnew ?_
    · have hring := hopen.settle rfl
      simpa [Laid, TxReadSide.step, hcommit] using hring
    · -- what is left is no more than what there was
      have hle : (packed ((s.left c).map TxPacket.words)).length ≤ occupied s.pending := by
        rw [occupied, packetWords_eq]
        rcases hptr with ⟨hleft, -⟩ | ⟨p, hpending, -⟩
        · rw [hleft]
        · rw [hpending, List.map_cons, length_packed_cons]
          exact Nat.le_add_left _ _
      simp only at hroom
      rw [length_endMarked]
      omega

end TxReadSide

/-! ## Where the reader stands -/

/-- `cyc` and `stb`, as the state has them. -/
structure TxPkt2Mac.Driven (m : TxPkt2Mac) : Prop where
  cyc : m.cyc = decide (m.state ≠ .idle)
  stb : m.stb = decide (m.state = .wrfStatus ∨ m.state = .frame)

theorem TxPkt2Mac.Driven.step {m : TxPkt2Mac} (h : m.Driven) (empty eop stall : Bool) :
    (m.step empty eop stall).Driven := by
  obtain ⟨hcyc, hstb⟩ := h
  cases hs : m.state with
  | idle => cases empty <;> constructor <;> simp [TxPkt2Mac.step, hs]
  | wrfStatus =>
    cases stall <;> constructor <;> simp [TxPkt2Mac.step, TxPkt2Mac.nextWord, hs, hcyc, hstb]
  | frame =>
    cases stall <;> cases eop <;> constructor <;>
      simp [TxPkt2Mac.step, TxPkt2Mac.nextWord, hs, hcyc]
  | stall => cases stall <;> constructor <;> simp [TxPkt2Mac.step, TxPkt2Mac.nextWord, hs, hcyc]
  | endCycle => cases stall <;> constructor <;> simp [TxPkt2Mac.step, hs, hcyc]

section Sending

variable {pending new : List TxPacket} {q q' : BitVec 17} {m : TxPkt2Mac} {empty stall : Bool}

/-- **Where the reader stands** in the first packet, and which of its words the
buffer shows. -/
inductive Sending (pending : List TxPacket) (q : BitVec 17) (m : TxPkt2Mac) : Prop
  | idle : m.state = .idle → m.offset = 0 → Sending pending q m
  | status : m.state = .wrfStatus → m.offset = 0 → pending ≠ [] → Sending pending q m
  | frame {p : TxPacket} {ps : List TxPacket} {k : ℕ} : pending = p :: ps → m.state = .frame →
    m.offset = k + 1 → (endMarked p.words)[k]? = some q → Sending pending q m
  | stall {p : TxPacket} {ps : List TxPacket} : pending = p :: ps → m.state = .stall →
    m.offset < p.words.length → Sending pending q m
  | endCycle : m.state = .endCycle → m.offset = 0 → Sending pending q m

/-- The words of a packet, one behind the other. -/
theorem sending_nextWord {p : TxPacket} {ps : List TxPacket}
    (hq : (endMarked p.words)[m.offset]? = some q') : Sending (p :: ps) q' m.nextWord :=
  .frame rfl rfl rfl hq

/-- **One edge of the reader** that sends no packet to its end. -/
theorem Sending.step_keep (h : Sending pending q m) (hempty : empty = false → pending ≠ [])
    (hq : ∀ p ps, pending = p :: ps → m.offset < p.words.length →
      (endMarked p.words)[m.offset]? = some q')
    (hkeep : ¬ (m.state = .frame ∧ stall = false ∧ packetEop q = true)) :
    Sending (pending ++ new) q' (m.step empty (packetEop q) stall) := by
  cases h with
  | idle hs hoffset =>
    cases hempty' : empty with
    | true => exact .idle (by simp [TxPkt2Mac.step, hs]) (by simp [TxPkt2Mac.step, hs])
    | false =>
      exact .status (by simp [TxPkt2Mac.step, hs]) (by simp [TxPkt2Mac.step, hs])
        (List.append_ne_nil_of_left_ne_nil (hempty hempty') _)
  | status hs hoffset hne =>
    obtain ⟨p, ps, rfl⟩ := List.exists_cons_of_ne_nil hne
    cases stall with
    | true =>
      exact .status (by simp [TxPkt2Mac.step, hs]) (by simp [TxPkt2Mac.step, hs, hoffset])
        (List.cons_ne_nil _ _)
    | false =>
      -- every packet has a first word
      have hlt : m.offset < p.words.length := hoffset ▸ p.pos
      rw [TxPkt2Mac.step_nextWord (.inl hs)]
      exact sending_nextWord (hq p ps rfl hlt)
  | @frame p ps k hpending hs hoffset hshown =>
    subst hpending
    cases stall with
    | true =>
      -- the word that is shown waits, and is asked for again
      obtain ⟨hk, -⟩ := List.getElem?_eq_some_iff.1 hshown
      rw [length_endMarked] at hk
      exact .stall rfl (by simp [TxPkt2Mac.step, hs]) (by simpa [TxPkt2Mac.step, hs, hoffset])
    | false =>
      have hlast : packetEop q = false := by
        rw [hs] at hkeep
        simpa using hkeep
      obtain ⟨hword, heop⟩ := getElem?_endMarked hshown
      have hne : k + 1 ≠ p.words.length := of_decide_eq_false (heop.symm.trans hlast)
      have hlt : m.offset < p.words.length := by
        obtain ⟨hk, -⟩ := List.getElem?_eq_some_iff.1 hword
        omega
      rw [TxPkt2Mac.step_nextWord (.inr (.inr ⟨hs, hlast⟩))]
      exact sending_nextWord (hq p ps rfl hlt)
  | @stall p ps hpending hs hlt =>
    subst hpending
    cases stall with
    | true =>
      exact .stall rfl (by simp [TxPkt2Mac.step, hs]) (by simpa [TxPkt2Mac.step, hs] using hlt)
    | false =>
      rw [TxPkt2Mac.step_nextWord (.inr (.inl hs))]
      exact sending_nextWord (hq p ps rfl hlt)
  -- the packet is gone already: `endCycle` only waits for the line
  | endCycle hs hoffset =>
    cases stall with
    | true => exact .endCycle (by simp [TxPkt2Mac.step, hs]) (by simp [TxPkt2Mac.step, hs, hoffset])
    | false => exact .idle (by simp [TxPkt2Mac.step, hs]) (by simp [TxPkt2Mac.step, hs, hoffset])

/-- **The last word** of the first packet is shown. -/
theorem Sending.exists_last (h : Sending pending q m) (hs : m.state = .frame)
    (hlast : packetEop q = true) : ∃ p ps k, pending = p :: ps ∧ m.offset = p.words.length ∧
      m.offset = k + 1 ∧ (endMarked p.words)[k]? = some q := by
  cases h with
  | idle hs' _ => exact absurd (hs'.symm.trans hs) (by decide)
  | status hs' _ _ => exact absurd (hs'.symm.trans hs) (by decide)
  | stall _ hs' _ => exact absurd (hs'.symm.trans hs) (by decide)
  | endCycle hs' _ => exact absurd (hs'.symm.trans hs) (by decide)
  | @frame p ps k hpending _ hoffset hshown =>
    have hk : k + 1 = p.words.length :=
      of_decide_eq_true ((getElem?_endMarked hshown).2.symm.trans hlast)
    exact ⟨p, ps, k, hpending, hoffset.trans hk, hoffset, hshown⟩

/-- `Offset` stays in its range. -/
theorem Sending.offset_le (h : Sending pending q m) : m.offset ≤ maxReservPktBuf := by
  cases h with
  | idle _ hoffset => exact hoffset ▸ Nat.zero_le _
  | status _ hoffset _ => exact hoffset ▸ Nat.zero_le _
  | @frame p _ k _ _ hoffset hshown =>
    obtain ⟨hk, -⟩ := List.getElem?_eq_some_iff.1 hshown
    rw [length_endMarked] at hk
    exact hoffset ▸ Nat.le_trans hk p.size
  | @stall p _ _ _ hlt => exact hlt.le.trans p.size
  | endCycle _ hoffset => exact hoffset ▸ Nat.zero_le _

end Sending

namespace TxReadSide

variable {s : TxReadSide ram} {c : TxReadInput}

/-- **The reader and its packets**: where they lie, and where it stands in the
first one. -/
structure Sound (s : TxReadSide ram) : Prop where
  laid : Laid s
  sending : Sending s.pending (ram.qb s.buffer) s.mac

theorem sound_start {buffer : ram.State} {base : BitVec txPktBufAdrsize} {ps : List TxPacket}
    (hheld : ram.Holds buffer base 0 (packetWords ps))
    (hroom : occupied ps < 2 ^ txPktBufAdrsize) : Sound (start buffer base ps) :=
  ⟨laid_start hheld hroom, .idle rfl rfl⟩

theorem Sound.pending_ne (h : Sound s) (hempty : s.empty = false) : s.pending ≠ [] := fun hnil => by
  rw [h.laid.empty.2 hnil] at hempty
  cases hempty

/-- **A packet is sent to its end**: it is the first one, and the pointer moves
behind it. -/
theorem Sound.finish (h : Sound s) (hfin : s.finishes c = true) :
    ∃ p, s.pending = p :: s.left c ∧
      (s.macNext c).pktPtr = s.mac.pktPtr + BitVec.ofNat txPktBufAdrsize p.words.length := by
  have hleft : s.left c = s.pending.tail := if_pos hfin
  obtain ⟨hs, hstall, hlast⟩ := TxPkt2Mac.endCycle_iff.1 (of_decide_eq_true hfin)
  obtain ⟨p, ps, -, hpending, hoffset, -⟩ := h.sending.exists_last hs hlast
  refine ⟨p, by rw [hleft, hpending, List.tail_cons], ?_⟩
  simp [macNext, TxPkt2Mac.step, hs, hstall, hlast, hoffset]

/-- No packet is. -/
theorem keep_of_finishes (hfin : s.finishes c = false) :
    s.left c = s.pending ∧ (s.macNext c).pktPtr = s.mac.pktPtr := by
  refine ⟨by rw [left, hfin]; rfl, TxPkt2Mac.pktPtr_step fun hend => ?_⟩
  exact of_decide_eq_false hfin (TxPkt2Mac.endCycle_iff.2 hend)

/-- **One edge.** -/
theorem Sound.step (h : Sound s) (hc : Supplied (s, c)) : Sound (s.step c) := by
  cases hfin : s.finishes c with
  | true =>
    refine ⟨h.laid.step hc (.inr (h.finish hfin)), ?_⟩
    obtain ⟨hs, hstall, hlast⟩ := TxPkt2Mac.endCycle_iff.1 (of_decide_eq_true hfin)
    exact .endCycle (by simp [TxReadSide.step, macNext, TxPkt2Mac.step, hs, hstall, hlast])
      (by simp [TxReadSide.step, macNext, TxPkt2Mac.step, hs, hstall, hlast])
  | false =>
    obtain ⟨hleft, hptr⟩ := keep_of_finishes hfin
    refine ⟨h.laid.step hc (.inl ⟨hleft, hptr⟩), ?_⟩
    rw [TxReadSide.step, hleft]
    exact h.sending.step_keep h.pending_ne (fun p ps hp hlt => h.laid.word hc hp hlt) fun hend =>
      of_decide_eq_false hfin (TxPkt2Mac.endCycle_iff.2 hend)

end TxReadSide

/-! ## What has gone -/

section Gone

variable {wrf : WrFabric} {sent pending new : List TxPacket} {q : BitVec 17} {m : TxPkt2Mac}
  {b : Bursts} {empty stall : Bool}

/-- How many words of its frame are out before the one that is shown. -/
def TxPkt2Mac.out (m : TxPkt2Mac) : ℕ := if m.state = .stall then m.offset + 1 else m.offset

/-- **What has gone** of the packets: those that are sent, and the beginning of
the first one that is not. -/
def Gone (wrf : WrFabric) (sent pending : List TxPacket) (m : TxPkt2Mac) (b : Bursts) : Prop :=
  match m.state with
  | .idle => b.all = sent.map (TxPacket.frame wrf)
  | .endCycle => b.all = sent.map (TxPacket.frame wrf) ∧ b.current ≠ none
  | _ => b.done = sent.map (TxPacket.frame wrf) ∧
    ∀ p ∈ pending.head?, b.current.getD [] = (p.frame wrf).take m.out

/-- The cycles of `cyc` while the reader waits. -/
theorem TxPkt2Mac.Driven.bursts_idle {d : Word} (h : m.Driven) (hs : m.state = .idle) :
    b.step (m.srcO wrf d) stall = { done := b.all } :=
  if_neg (by simp [TxPkt2Mac.srcO, h.cyc, hs])

/-- The cycles of `cyc` while it is up. -/
theorem TxPkt2Mac.Driven.bursts_busy {d : Word} (h : m.Driven) (hs : m.state ≠ .idle) :
    b.step (m.srcO wrf d) stall =
      { b with current := some (b.current.getD [] ++ ((m.srcO wrf d).transfer stall).toList) } :=
  if_pos (by simp [TxPkt2Mac.srcO, h.cyc, hs])

/-- No word is taken where none is shown. -/
theorem TxPkt2Mac.Driven.transfer_none {d : Word} (h : m.Driven)
    (hs : ¬ (m.state = .wrfStatus ∨ m.state = .frame)) :
    (m.srcO wrf d).transfer stall = none := by
  rw [SrcOutput.transfer, TxPkt2Mac.srcO, h.stb, decide_eq_false hs]
  rfl

/-- A word that is shown is taken where the MAC does not stall. -/
theorem TxPkt2Mac.Driven.transfer_frame {d : Word} (h : m.Driven) (hs : m.state = .frame) :
    (m.srcO wrf d).transfer false = some (wrf.wrfData, d) := by
  simp [SrcOutput.transfer, TxPkt2Mac.srcO, h.stb, hs]

/-- **An edge** that sends no packet to its end. -/
theorem Gone.step_keep (h : Gone wrf sent pending m b) (hsending : Sending pending q m)
    (hdriven : m.Driven)
    (hkeep : ¬ (m.state = .frame ∧ stall = false ∧ packetEop q = true)) :
    Gone wrf sent (pending ++ new) (m.step empty (packetEop q) stall)
      (b.step (m.srcO wrf (packetData q)) stall) := by
  cases hsending with
  | idle hs hoffset =>
    simp only [Gone, hs] at h
    rw [hdriven.bursts_idle hs]
    cases empty with
    | true => simpa [Gone, TxPkt2Mac.step, hs, Bursts.all] using h
    | false => simpa [Gone, TxPkt2Mac.step, hs, TxPkt2Mac.out] using h
  | status hs hoffset hne =>
    obtain ⟨p, ps, rfl⟩ := List.exists_cons_of_ne_nil hne
    simp only [Gone, hs] at h
    have hcur : b.current.getD [] = [] := by simpa [TxPkt2Mac.out, hs, hoffset] using h.2 p rfl
    rw [hdriven.bursts_busy (by rw [hs]; decide), hcur]
    cases stall with
    | true =>
      simpa [Gone, TxPkt2Mac.step, TxPkt2Mac.out, SrcOutput.transfer, hs, hoffset] using h.1
    | false =>
      have hword : (m.srcO wrf (packetData q)).transfer false = some (wrf.wrfStatus, 0x0204) := by
        simp [SrcOutput.transfer, TxPkt2Mac.srcO, hdriven.stb, hs]
      rw [TxPkt2Mac.step_nextWord (.inl hs), hword]
      simpa [Gone, TxPkt2Mac.nextWord, TxPkt2Mac.out, hoffset, TxPacket.frame] using h.1
  | @frame p ps k hpending hs hoffset hshown =>
    subst hpending
    simp only [Gone, hs] at h
    have hcur : b.current.getD [] = (p.frame wrf).take (k + 1) := by
      simpa [TxPkt2Mac.out, hs, hoffset] using h.2 p rfl
    rw [hdriven.bursts_busy (by rw [hs]; decide), hcur]
    cases stall with
    | true =>
      simpa [Gone, TxPkt2Mac.step, TxPkt2Mac.out, SrcOutput.transfer, hs, hoffset] using h.1
    | false =>
      have hlast : packetEop q = false := by
        rw [hs] at hkeep
        simpa using hkeep
      rw [TxPkt2Mac.step_nextWord (.inr (.inr ⟨hs, hlast⟩)), hdriven.transfer_frame hs,
        Option.toList_some, TxPacket.take_frame hshown]
      simpa [Gone, TxPkt2Mac.nextWord, TxPkt2Mac.out, hoffset] using h.1
  | @stall p ps hpending hs hlt =>
    subst hpending
    simp only [Gone, hs] at h
    have hcur : b.current.getD [] = (p.frame wrf).take (m.offset + 1) := by
      simpa [TxPkt2Mac.out, hs] using h.2 p rfl
    rw [hdriven.bursts_busy (by rw [hs]; decide), hcur, hdriven.transfer_none (by rw [hs]; decide),
      Option.toList_none, List.append_nil]
    cases stall with
    | true => simpa [Gone, TxPkt2Mac.step, TxPkt2Mac.out, hs] using h.1
    | false =>
      rw [TxPkt2Mac.step_nextWord (.inr (.inl hs))]
      simpa [Gone, TxPkt2Mac.nextWord, TxPkt2Mac.out] using h.1
  | endCycle hs hoffset =>
    simp only [Gone, hs] at h
    obtain ⟨hall, hopen⟩ := h
    obtain ⟨w, hw⟩ := Option.ne_none_iff_exists'.1 hopen
    rw [hdriven.bursts_busy (by rw [hs]; decide), hw, hdriven.transfer_none (by rw [hs]; decide)]
    rw [Bursts.all, hw] at hall
    cases stall with
    | true => simpa [Gone, TxPkt2Mac.step, hs, Bursts.all] using hall
    | false => simpa [Gone, TxPkt2Mac.step, hs, Bursts.all] using hall

/-- **The edge that sends a packet to its end.** -/
theorem Gone.step_finish {p : TxPacket} {rest : List TxPacket} (h : Gone wrf sent (p :: rest) m b)
    (hsending : Sending (p :: rest) q m) (hdriven : m.Driven) (hs : m.state = .frame)
    (hlast : packetEop q = true) : Gone wrf (sent ++ [p]) (rest ++ new)
      (m.step empty (packetEop q) false) (b.step (m.srcO wrf (packetData q)) false) := by
  obtain ⟨p', ps, k, hpending, hlength, hoffset, hshown⟩ := hsending.exists_last hs hlast
  obtain ⟨rfl, rfl⟩ := List.cons.inj hpending
  simp only [Gone, hs] at h
  have hcur : b.current.getD [] = (p.frame wrf).take (k + 1) := by
    simpa [TxPkt2Mac.out, hs, hoffset] using h.2 p rfl
  have hwhole : (p.frame wrf).take (k + 1) ++ [(wrf.wrfData, packetData q)] = p.frame wrf := by
    rw [TxPacket.take_frame hshown, List.take_of_length_le]
    rw [TxPacket.length_frame]
    omega
  rw [hdriven.bursts_busy (by rw [hs]; decide), hcur, hdriven.transfer_frame hs,
    Option.toList_some, hwhole]
  simp [Gone, TxPkt2Mac.step, hs, hlast, Bursts.all, h.1]

/-- **What has gone**: the frames of the packets sent, each in a cycle of
`cyc` of its own, and perhaps the beginning of the next one. -/
def FramesOf (wrf : WrFabric) (sent rest : List TxPacket) (bs : List (List FabricWord)) : Prop :=
  bs = sent.map (TxPacket.frame wrf) ∨
    ∃ p ∈ rest.head?, ∃ w, w <+: p.frame wrf ∧ w ≠ p.frame wrf ∧
      bs = sent.map (TxPacket.frame wrf) ++ [w]

/-- Nothing is begun where nothing is left. -/
theorem FramesOf.eq_of_nil {bs : List (List FabricWord)} (h : FramesOf wrf sent [] bs) :
    bs = sent.map (TxPacket.frame wrf) := by
  rcases h with hall | ⟨p, hp, -⟩
  · exact hall
  · cases hp

theorem Sending.out_le {p : TxPacket} {ps : List TxPacket} (h : Sending (p :: ps) q m) :
    m.out ≤ p.words.length := by
  cases h with
  | idle hs hoffset => simp [TxPkt2Mac.out, hs, hoffset]
  | status hs hoffset _ => simp [TxPkt2Mac.out, hs, hoffset]
  | frame hpending hs hoffset hshown =>
    obtain ⟨rfl, rfl⟩ := List.cons.inj hpending
    obtain ⟨hk, -⟩ := List.getElem?_eq_some_iff.1 hshown
    rw [length_endMarked] at hk
    simp only [TxPkt2Mac.out, hs]
    exact hoffset ▸ hk
  | stall hpending hs hlt =>
    obtain ⟨rfl, rfl⟩ := List.cons.inj hpending
    rw [TxPkt2Mac.out, if_pos hs]
    exact hlt
  | endCycle hs hoffset => simp [TxPkt2Mac.out, hs, hoffset]

theorem Sending.exists_head (h : Sending pending q m)
    (hs : ¬ (m.state = .idle ∨ m.state = .endCycle)) : ∃ p ps, pending = p :: ps := by
  cases h with
  | idle hs' _ => exact absurd (.inl hs') hs
  | status _ _ hne => exact List.exists_cons_of_ne_nil hne
  | frame hpending _ _ _ => exact ⟨_, _, hpending⟩
  | stall hpending _ _ => exact ⟨_, _, hpending⟩
  | endCycle hs' _ => exact absurd (.inr hs') hs

/-- Between two packets the frames are whole. -/
theorem Gone.between (h : Gone wrf sent pending m b) (hs : m.state = .idle ∨ m.state = .endCycle) :
    b.all = sent.map (TxPacket.frame wrf) := by
  rcases hs with hs | hs <;> simp only [Gone, hs] at h
  · exact h
  · exact h.1

/-- Within one the last of them is begun. -/
theorem Gone.within (h : Gone wrf sent pending m b)
    (hs : ¬ (m.state = .idle ∨ m.state = .endCycle)) : b.done = sent.map (TxPacket.frame wrf) ∧
      ∀ p ∈ pending.head?, b.current.getD [] = (p.frame wrf).take m.out := by
  unfold Gone at h
  split at h
  · rename_i hidle
    exact absurd (.inl hidle) hs
  · rename_i hend
    exact absurd (.inr hend) hs
  · exact h

theorem Gone.framesOf (h : Gone wrf sent pending m b) (hsending : Sending pending q m) :
    FramesOf wrf sent pending b.all := by
  by_cases hs : m.state = .idle ∨ m.state = .endCycle
  · exact Or.inl (h.between hs)
  obtain ⟨hdone, hcur⟩ := h.within hs
  obtain ⟨p, ps, rfl⟩ := hsending.exists_head hs
  cases hopen : b.current with
  | none => exact Or.inl (by rw [Bursts.all, hdone, hopen]; exact List.append_nil _)
  | some w =>
    have hw : w = (p.frame wrf).take m.out := by simpa [hopen] using hcur p rfl
    refine Or.inr ⟨p, rfl, w, hw ▸ List.take_prefix _ _, fun heq => ?_, ?_⟩
    · have hlen := congrArg List.length (hw.symm.trans heq)
      have hout := hsending.out_le
      rw [List.length_take, TxPacket.length_frame] at hlen
      omega
    · rw [Bursts.all, hdone, hopen, Option.toList_some]

end Gone

/-! ## The run -/

/-- The words of the cycles are what the MAC took. -/
theorem Bursts.flatten_step {b : Bursts} {o : SrcOutput} {stall : Bool}
    (h : o.stb = true → o.cyc = true) :
    (b.step o stall).all.flatten = b.all.flatten ++ (o.transfer stall).toList := by
  cases hcyc : o.cyc with
  | true =>
    rw [Bursts.step, if_pos hcyc]
    cases hcur : b.current <;> simp [Bursts.all, hcur]
  | false =>
    have hstb : o.stb = false := Bool.eq_false_iff.2 fun hstb => by rw [h hstb] at hcyc; cases hcyc
    rw [Bursts.step, if_neg (by rw [hcyc]; decide)]
    simp [Bursts.all, SrcOutput.transfer, hstb]

namespace TxReadSide

section Serving

variable {wrf : WrFabric} {base : BitVec txPktBufAdrsize} {packets sent : List TxPacket}
  {s : TxReadSide ram} {c : TxReadInput} {xs : List (TxReadSide ram × TxReadInput)}
  {x : TxReadSide ram × TxReadInput}

theorem bursts_concat : bursts wrf (xs ++ [x]) = (bursts wrf xs).step (srcO wrf x) x.2.stall :=
  List.foldl_concat _ _ _ _

theorem transfers_concat :
    transfers wrf (xs ++ [x]) = transfers wrf xs ++ ((srcO wrf x).transfer x.2.stall).toList := by
  rw [transfers, List.filterMap_append, List.filterMap_cons, transfers]
  cases (srcO wrf x).transfer x.2.stall <;> rfl

/-- **The invariant of a run**: what is committed is sent or in the buffer. -/
structure Serving (wrf : WrFabric) (base : BitVec txPktBufAdrsize) (packets sent : List TxPacket)
    (s : TxReadSide ram) (xs : List (TxReadSide ram × TxReadInput)) : Prop where
  packets_eq : packets = sent ++ s.pending
  pktPtr : s.mac.pktPtr = base + BitVec.ofNat txPktBufAdrsize (occupied sent)
  sound : Sound s
  driven : s.mac.Driven
  gone : Gone wrf sent s.pending s.mac (bursts wrf xs)
  transfers_eq : transfers wrf xs = (bursts wrf xs).all.flatten

theorem serving_start {buffer : ram.State} {ps : List TxPacket}
    (hheld : ram.Holds buffer base 0 (packetWords ps))
    (hroom : occupied ps < 2 ^ txPktBufAdrsize) :
    Serving wrf base ps [] (start buffer base ps) [] where
  packets_eq := rfl
  pktPtr := (BitVec.add_zero base).symm
  sound := sound_start hheld hroom
  driven := ⟨rfl, rfl⟩
  gone := rfl
  transfers_eq := rfl

theorem Serving.framesOf (h : Serving wrf base packets sent s xs) :
    FramesOf wrf sent s.pending (bursts wrf xs).all := h.gone.framesOf h.sound.sending

theorem Serving.transfers_step (h : Serving wrf base packets sent s xs) (c : TxReadInput) :
    transfers wrf (xs ++ [(s, c)]) = (bursts wrf (xs ++ [(s, c)])).all.flatten := by
  rw [transfers_concat, bursts_concat, Bursts.flatten_step, h.transfers_eq]
  intro hstb
  have hcyc : (srcO wrf (s, c)).cyc = s.mac.cyc := rfl
  have hstb' : (srcO wrf (s, c)).stb = s.mac.stb := rfl
  rw [hstb', h.driven.stb, decide_eq_true_eq] at hstb
  rw [hcyc, h.driven.cyc, decide_eq_true_eq]
  rcases hstb with hs | hs <;> rw [hs] <;> decide

/-- **One edge**: at most the first packet is sent to its end. -/
theorem Serving.step (h : Serving wrf base packets sent s xs) (hc : Supplied (s, c)) :
    ∃ sent', Serving wrf base (packets ++ c.commit.toList) sent' (s.step c) (xs ++ [(s, c)]) := by
  have hdriven : (s.step c).mac.Driven := h.driven.step _ _ _
  have hsound := h.sound.step hc
  cases hfin : s.finishes c with
  | true =>
    -- the last word of the first packet is taken
    obtain ⟨p, hpending, hptr⟩ := h.sound.finish hfin
    obtain ⟨hs, hstall, hlast⟩ := TxPkt2Mac.endCycle_iff.1 (of_decide_eq_true hfin)
    refine ⟨sent ++ [p], ?_, ?_, hsound, hdriven, ?_, h.transfers_step c⟩
    · rw [h.packets_eq, hpending, TxReadSide.step]
      simp
    · rw [TxReadSide.step, hptr, h.pktPtr, occupied_append, occupied_cons, occupied_nil,
        Nat.add_zero, BitVec.ofNat_add, add_assoc]
    · have hgone := h.gone
      have hsending := h.sound.sending
      rw [hpending] at hgone hsending
      rw [bursts_concat, TxReadSide.step, macNext, hstall]
      exact hgone.step_finish hsending h.driven hs hlast
  | false =>
    obtain ⟨hleft, hptr⟩ := keep_of_finishes hfin
    refine ⟨sent, ?_, ?_, hsound, hdriven, ?_, h.transfers_step c⟩
    · rw [TxReadSide.step, hleft, h.packets_eq, List.append_assoc]
    · rw [TxReadSide.step, hptr, h.pktPtr]
    · rw [bursts_concat, TxReadSide.step, hleft]
      exact h.gone.step_keep h.sound.sending h.driven fun hend =>
        of_decide_eq_false hfin (TxPkt2Mac.endCycle_iff.2 hend)

end Serving

end TxReadSide

end Ipmux

end WrCalibration
