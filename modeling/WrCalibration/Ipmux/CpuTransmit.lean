import WrCalibration.Ipmux.Registers
import WrCalibration.Ipmux.CpuSession

/-!
# A frame from the CPU

Each word that the CPU writes is in the buffer two edges later, at the
packet pointer and its own address, and the word marked as the last one
gives the end of the packet. The address that reaches the buffer has twelve
bits: a frame is stored as it is up to 4096 words, and a longer one, though
it is inside the space that is kept for a packet, wraps around in itself.
-/

namespace WrCalibration

namespace Ipmux

open Clocked Wishbone GenericDpram

/-- `ipmux_regs_and_rxtxcpu` and the write side of the transmit buffer, as
`ipmux` connects them. -/
structure CpuWriteSide (ram : GenericDpram txPktBufAdrsize 17) where
  regs : Registers
  tx : TxWriteSide ram

/-- The inputs of a cycle; what comes from the registers to the buffer, and
back, is not among them. -/
structure CpuWriteInput where
  regs : RegistersInput := {}
  tx : TxInput
  rdAddr : BitVec txPktBufAdrsize := 0

/-- The bus to the buffers. -/
def CpuWriteInput.bus (c : CpuWriteInput) : SlaveIn := c.regs.wbRxTx

namespace CpuWriteSide

variable {ram : GenericDpram txPktBufAdrsize 17} (s : CpuWriteSide ram) (c : CpuWriteInput)

/-- What `tx_data2buf` sees of a cycle. -/
def txInput : TxInput :=
  { c.tx with
    cpuTx := s.regs.cpuTx c.regs
    ethRegs := s.regs.ethRegs }

/-- One clock edge. -/
def step : CpuWriteSide ram where
  regs := s.regs.step { c.regs with cpuAccGnt := s.tx.sm.cpuAccGnt }
  tx := s.tx.step (s.txInput c, c.rdAddr)

/-- The acknowledge of the bus to the buffers. -/
def ack : Bool := s.regs.ackTxrx

theorem ack_step : (s.step c).ack = c.bus.ackNext s.ack := rfl

end CpuWriteSide

open CpuWriteSide

variable {ram : GenericDpram txPktBufAdrsize 17} {s : CpuWriteSide ram} {c c' : CpuWriteInput}
  {words : List Word} {base : BitVec txPktBufAdrsize} {k : ℕ}

/-! ## What the CPU does -/

/-- The CPU keeps its request in a cycle. -/
def Requesting (c : CpuWriteInput) : Prop :=
  c.regs.wbReg.write = true → Registers.index c.regs.wbReg.adr = 0x0A →
    c.regs.wbReg.dat.getLsbD 0 = true

/-- The CPU releases its request. -/
structure Releasing (c : CpuWriteInput) : Prop where
  write : c.regs.wbReg.write = true
  index : Registers.index c.regs.wbReg.adr = 0x0A
  request : c.regs.wbReg.dat.getLsbD 0 = false
  quiet : c.bus.strobe = false

/-- Word `k` of a frame is written to the word address `k`, the last one with
its mark. -/
structure IsWord (words : List Word) (k : ℕ) (i : SlaveIn) : Prop where
  we : i.we = true
  adr : i.adr.extractLsb' 2 txPktBufAdrsize = BitVec.ofNat txPktBufAdrsize k
  dat : i.dat.extractLsb' 0 16 = words.getD k 0
  eop : i.dat.getLsbD 16 = decide (k + 1 = words.length)

/-- **A frame is written** in a session of the CPU. -/
structure FrameWritten (s : CpuWriteSide ram) (words : List Word)
    (ts : List (Transfer CpuWriteInput)) : Prop where
  granted : s.tx.sm.state = .accessByCpu
  request : s.regs.txRequest = true
  ack : s.ack = false
  transfers : Transfers CpuWriteSide.step CpuWriteSide.ack CpuWriteInput.bus s ts
  requesting : ∀ t ∈ ts, ∀ c ∈ t.cycles, Requesting c
  written : ∀ k c, (ts.filterMap Transfer.first?)[k]? = some c → IsWord words k c.bus
  count : (ts.filterMap Transfer.first?).length = words.length

theorem IsWord.held {i j : SlaveIn} (h : IsWord words k i) (hij : i.HeldBy j) : IsWord words k j :=
  ⟨hij.we.trans h.we, by rw [hij.adr]; exact h.adr, by rw [hij.dat h.we]; exact h.dat,
    by rw [hij.dat h.we]; exact h.eop⟩

/-- The address of a word in the buffer. -/
def bufAddr (k : ℕ) : ℕ := k % 2 ^ (txPktBufAdrsize - 1)

theorem bufAddr_eq (k : ℕ) : bufAddr k = k % 4096 := rfl

theorem toNat_ofNat_adrsize (k : ℕ) : (BitVec.ofNat txPktBufAdrsize k).toNat = k % 8192 :=
  BitVec.toNat_ofNat ..

/-- **What reaches the buffer** of a word: its address has lost its highest
bit, and the range check does not find that. -/
theorem cpuTx_of_isWord (h : IsWord words k c.bus) (hstrobe : c.bus.strobe = true) :
    s.regs.cpuTx c.regs =
      { request := s.regs.txRequest, eop := decide (k + 1 = words.length), d := words.getD k 0
        addr := BitVec.ofNat txPktBufAdrsize (bufAddr k), wrEn := true } := by
  have haddr : (c.bus.adr.extractLsb' 2 (txPktBufAdrsize - 1)).setWidth txPktBufAdrsize =
      BitVec.ofNat txPktBufAdrsize (bufAddr k) := by
    have hlow : c.bus.adr.extractLsb' 2 (txPktBufAdrsize - 1) =
        (c.bus.adr.extractLsb' 2 txPktBufAdrsize).setWidth (txPktBufAdrsize - 1) := by
      ext i hi
      simp [BitVec.getLsbD_extractLsb']
      omega
    rw [hlow, h.adr]
    apply BitVec.eq_of_toNat_eq
    rw [BitVec.toNat_setWidth, BitVec.toNat_setWidth, toNat_ofNat_adrsize, toNat_ofNat_adrsize,
      bufAddr_eq]
    change k % 8192 % 4096 % 8192 = k % 4096 % 8192
    omega
  have hrange : (BitVec.ofNat txPktBufAdrsize (bufAddr k)).toNat ≤ maxReservPktBuf := by
    rw [toNat_ofNat_adrsize, bufAddr_eq]
    change k % 4096 % 8192 ≤ 4507
    omega
  have hwrite : c.bus.write = true := by
    rw [SlaveIn.write, show (c.bus.cyc && c.bus.stb) = true from hstrobe, h.we]
    rfl
  change Registers.cpuTx s.regs c.regs = _
  unfold Registers.cpuTx
  simp only [show c.regs.wbRxTx = c.bus from rfl, haddr, hrange, decide_true, if_true, hwrite,
    h.dat, h.eop, Bool.and_self]

/-! ## The buffer -/

/-- The buffer after the write that is under way. -/
def CpuWriteSide.pending (s : CpuWriteSide ram) (b : BitVec txPktBufAdrsize) : ram.State :=
  ram.step s.tx.buffer s.tx.sm.wrEn s.tx.sm.wrAddr (packetWord s.tx.sm.eopOut s.tx.sm.dout) b

/-- **In a session**: `k` words have been written. -/
structure Loaded (words : List Word) (base : BitVec txPktBufAdrsize) (k : ℕ)
    (s : CpuWriteSide ram) : Prop where
  state : s.tx.sm.state = .accessByCpu
  selSm : 0 < k → s.tx.sm.selSm = true
  pktPtr : s.tx.sm.pktPtr = base
  held : words.length ≤ 4096 →
    ∀ b, ram.Holds (s.pending b) base 0 ((endMarked words).take k)
  pktEnd : 0 < k → k = words.length →
    s.tx.sm.pktEnd = BitVec.ofNat txPktBufAdrsize (bufAddr (k - 1))

/-- An edge writes what is under way. -/
theorem Loaded.buffer_step (h : Loaded words base k s) (hk : 0 < k) (c : CpuWriteInput) :
    (s.step c).tx.buffer = s.pending c.rdAddr := by
  change (s.tx.step (s.txInput c, c.rdAddr)).buffer = _
  simp only [TxWriteSide.step, txWrDataSrcSel, h.selSm hk, if_true]
  rfl

/-- The words written are held after an edge. -/
theorem Loaded.holds_step (h : Loaded words base k s)
    (hlen : words.length ≤ 4096) (c : CpuWriteInput) :
    ram.Holds (s.step c).tx.buffer base 0 ((endMarked words).take k) := by
  rcases Nat.eq_zero_or_pos k with rfl | hk
  · intro j hj
    exact absurd hj (Nat.not_lt_zero j)
  · rw [h.buffer_step hk c]
    exact h.held hlen c.rdAddr

/-- While the request is held the machine takes what the CPU drives. -/
theorem Loaded.sm_step (h : Loaded words base k s) (hrequest : s.regs.txRequest = true) :
    (s.step c).tx.sm = s.tx.sm.toAccessByCpu (s.txInput c) :=
  step_of_request h.state _ hrequest

/-- **A cycle without a write** leaves the words. -/
theorem Loaded.gap (h : Loaded words base k s) (hrequest : s.regs.txRequest = true)
    (hgap : c.bus.write = false) : Loaded words base k (s.step c) := by
  have hsm := h.sm_step (c := c) hrequest
  have hwrEn : (s.txInput c).cpuTx.wrEn = false := by
    change (s.regs.cpuTx c.regs).wrEn = false
    unfold Registers.cpuTx
    simp only [show c.regs.wbRxTx = c.bus from rfl, hgap, Bool.and_false]
  constructor
  · rw [hsm]
    rfl
  · intro _
    rw [hsm]
    rfl
  · rw [hsm]
    exact h.pktPtr
  · intro hlen b
    have hheld := h.holds_step hlen c
    rw [pending, hsm]
    refine hheld.step fun hwe => ?_
    have hfalse : (s.tx.sm.toAccessByCpu (s.txInput c)).wrEn = false := hwrEn
    rw [hfalse] at hwe
    cases hwe
  · intro hk hkl
    rw [hsm, ← h.pktEnd hk hkl]
    simp only [TxData2Buf.toAccessByCpu, hwrEn, Bool.and_false, Bool.false_eq_true, if_false]

/-- **A cycle that writes a word** adds it, in its first cycle and again in
its second one. -/
theorem Loaded.write (h : Loaded words base k s ∨ Loaded words base (k + 1) s)
    (hrequest : s.regs.txRequest = true) (hword : IsWord words k c.bus)
    (hstrobe : c.bus.strobe = true) (hk : k < words.length) :
    Loaded words base (k + 1) (s.step c) := by
  have hcpu : (s.txInput c).cpuTx = _ := cpuTx_of_isWord (s := s) hword hstrobe
  have hsm : (s.step c).tx.sm = s.tx.sm.toAccessByCpu (s.txInput c) := by
    rcases h with h | h
    · exact h.sm_step hrequest
    · exact h.sm_step hrequest
  have hptr : s.tx.sm.pktPtr = base := by
    rcases h with h | h
    · exact h.pktPtr
    · exact h.pktPtr
  constructor
  · rw [hsm]
    rfl
  · intro _
    rw [hsm]
    rfl
  · rw [hsm]
    exact hptr
  · intro hlen b
    have hlt : k < (endMarked words).length := by rwa [length_endMarked]
    have hbuf : bufAddr k = k := Nat.mod_eq_of_lt (hk.trans_le hlen)
    have hsize : 4096 < 2 ^ txPktBufAdrsize := by decide
    -- the write that is under way now is that of the word, at its place
    have hpending : (s.step c).pending b = ram.step (s.step c).tx.buffer true
        (base + BitVec.ofNat txPktBufAdrsize (0 + k)) (endMarked words)[k] b := by
      have haddr : (BitVec.ofNat txPktBufAdrsize k).toNat = k := by
        rw [toNat_ofNat_adrsize, Nat.mod_eq_of_lt (by omega)]
      rw [pending, hsm, getElem_endMarked, zero_add]
      simp only [TxData2Buf.wrAddr, TxData2Buf.toAccessByCpu, hcpu, hptr, hbuf, haddr]
    rw [hpending]
    rcases h with h | h
    · have hnew := (h.holds_step hlen c).step_append (w := (endMarked words)[k]) (b := b)
        (by rw [List.length_take, length_endMarked]; omega)
      rw [List.length_take_of_le hlt.le] at hnew
      rwa [List.take_concat_get' _ _ hlt] at hnew
    · have hin : k < ((endMarked words).take (k + 1)).length := by
        rw [List.length_take]
        omega
      have hsame := (h.holds_step hlen c).step_set (w := (endMarked words)[k]) (b := b) (k := k)
        (by rw [List.length_take, length_endMarked]; omega) hin
      have hset : ((endMarked words).take (k + 1)).set k (endMarked words)[k] =
          (endMarked words).take (k + 1) := by
        have hget : ((endMarked words).take (k + 1))[k] = (endMarked words)[k] :=
          List.getElem_take
        rw [← hget, List.set_getElem_self]
      rwa [hset] at hsame
  · intro _ hkl
    rw [hsm]
    simp only [TxData2Buf.toAccessByCpu, hcpu, hkl, decide_true, Bool.and_self, if_true]
    rw [← hkl, Nat.add_sub_cancel]

/-! ## The session -/

/-- A cycle that keeps the request keeps it. -/
theorem Requesting.step (h : Requesting c) (hrequest : s.regs.txRequest = true) :
    (s.step c).regs.txRequest = true :=
  Registers.control_invariant (fun x => x.1 = true) hrequest h

/-- A cycle that releases the request takes it back. -/
theorem Releasing.step (h : Releasing c) (s : CpuWriteSide ram) :
    (s.step c).regs.txRequest = false := by
  have hcontrol : (s.step c).regs.control = _ :=
    s.regs.control_step { c.regs with cpuAccGnt := s.tx.sm.cpuAccGnt }
  change (Registers.control (s.step c).regs).1 = false
  rw [hcontrol, if_pos h.write, Registers.control_writeReg, if_pos h.index]
  exact h.request

/-- **One transfer**: a gap, or the next word of the frame. -/
theorem Loaded.transfer {t : Transfer CpuWriteInput} (h : Loaded words base k s)
    (hrequest : s.regs.txRequest = true) (hack : s.ack = false)
    (ht : t.Classic CpuWriteSide.step CpuWriteSide.ack CpuWriteInput.bus s)
    (hreq : ∀ c ∈ t.cycles, Requesting c)
    (hword : ∀ c ∈ t.first?, IsWord words k c.bus ∧ k < words.length) :
    Loaded words base (k + t.first?.toList.length) (run CpuWriteSide.step s t.cycles) ∧
      (run CpuWriteSide.step s t.cycles).regs.txRequest = true := by
  cases t with
  | gap c =>
    exact ⟨h.gap hrequest (SlaveIn.write_of_strobe ht),
      (hreq c (by simp [Transfer.cycles])).step hrequest⟩
  | access c held =>
    obtain ⟨hstrobe, c', rfl, hheld⟩ := ht.access_eq ack_step hack
    obtain ⟨hisWord, hk⟩ := hword c rfl
    have hfirst := Loaded.write (.inl h) hrequest hisWord hstrobe hk
    have hrequest' := (hreq c (by simp [Transfer.cycles])).step hrequest
    exact ⟨Loaded.write (.inr hfirst) hrequest' (hisWord.held hheld) hheld.strobe hk,
      (hreq c' (by simp [Transfer.cycles])).step hrequest'⟩

/-- **The words of a session**, one transfer after the other. -/
theorem Loaded.transfers {ts : List (Transfer CpuWriteInput)}
    (hts : Transfers CpuWriteSide.step CpuWriteSide.ack CpuWriteInput.bus s ts)
    (h : Loaded words base k s) (hrequest : s.regs.txRequest = true) (hack : s.ack = false)
    (hreq : ∀ t ∈ ts, ∀ c ∈ t.cycles, Requesting c)
    (hwords : ∀ j c, (ts.filterMap Transfer.first?)[j]? = some c → IsWord words (k + j) c.bus)
    (hcount : k + (ts.filterMap Transfer.first?).length = words.length) :
    Loaded words base words.length (run CpuWriteSide.step s (ts.flatMap Transfer.cycles)) ∧
      (run CpuWriteSide.step s (ts.flatMap Transfer.cycles)).regs.txRequest = true := by
  induction hts generalizing k with
  | nil =>
    rw [List.filterMap_nil, List.length_nil, Nat.add_zero] at hcount
    rw [← hcount]
    exact ⟨h, hrequest⟩
  | @cons s t ts ht _ ih =>
    obtain ⟨hreqt, hreqts⟩ := List.forall_mem_cons.1 hreq
    have hsplit : (t :: ts).filterMap Transfer.first? =
        t.first?.toList ++ ts.filterMap Transfer.first? := by
      rw [List.filterMap_cons]
      cases t.first? <;> rfl
    rw [hsplit] at hwords hcount
    rw [List.length_append] at hcount
    have hword : ∀ c ∈ t.first?, IsWord words k c.bus ∧ k < words.length := by
      intro c hc
      rw [Option.mem_def] at hc
      rw [hc, Option.toList_some] at hwords hcount
      refine ⟨hwords 0 c rfl, ?_⟩
      rw [List.length_singleton] at hcount
      omega
    obtain ⟨hnow, hreqnow⟩ := h.transfer hrequest hack ht hreqt hword
    rw [List.flatMap_cons, run_append]
    refine ih hnow hreqnow (ht.ack_run ack_step hack) hreqts (fun j c hc => ?_) (by omega)
    rw [Nat.add_assoc]
    refine hwords _ c ?_
    rwa [List.getElem?_append_right (by omega), Nat.add_sub_cancel_left]

/-- **The frame is stored**: its words are in the buffer from the packet
pointer on, the mark on the last one only, and the pointer is behind them. -/
def StoresFrame (words : List Word) (s s' : CpuWriteSide ram) : Prop :=
  ram.Holds s'.tx.buffer s.tx.sm.pktPtr 0 (endMarked words) ∧
    s'.tx.sm.pktPtr = s.tx.sm.pktPtr + BitVec.ofNat txPktBufAdrsize words.length

/-- **What a session leaves**, after the release of the request. -/
theorem FrameWritten.leaves {ts : List (Transfer CpuWriteInput)} (h : FrameWritten s words ts)
    (hne : words ≠ []) {release : CpuWriteInput} (hrelease : Releasing release)
    (last : CpuWriteInput) :
    (words.length ≤ 4096 →
      ram.Holds (run CpuWriteSide.step s (ts.flatMap Transfer.cycles ++ [release, last])).tx.buffer
        s.tx.sm.pktPtr 0 (endMarked words)) ∧
    (run CpuWriteSide.step s (ts.flatMap Transfer.cycles ++ [release, last])).tx.sm.pktPtr =
      s.tx.sm.pktPtr + BitVec.ofNat txPktBufAdrsize (bufAddr (words.length - 1) + 1) := by
  have hpos := List.length_pos_iff.2 hne
  have hstart : Loaded words s.tx.sm.pktPtr 0 s :=
    ⟨h.granted, fun hk => absurd hk (Nat.lt_irrefl 0), rfl,
      fun _ _ j hj => absurd hj (Nat.not_lt_zero j), fun hk => absurd hk (Nat.lt_irrefl 0)⟩
  obtain ⟨hloaded, hrequest⟩ := hstart.transfers h.transfers h.request h.ack h.requesting
    (fun j c hc => by rw [Nat.zero_add]; exact h.written j c hc)
    (by rw [Nat.zero_add]; exact h.count)
  rw [run_append]
  generalize run CpuWriteSide.step s (ts.flatMap Transfer.cycles) = s₁ at hloaded hrequest ⊢
  have hloaded' := hloaded.gap hrequest (SlaveIn.write_of_strobe hrelease.quiet)
  have hreleased := hrelease.step s₁
  rw [run_cons, run_cons, run_nil]
  generalize s₁.step release = s₂ at hloaded' hreleased ⊢
  have hsm : (s₂.step last).tx.sm.pktPtr = s₂.tx.sm.pktPtr + s₂.tx.sm.pktEnd + 1 :=
    pktPtr_of_release hloaded'.state _ hreleased
  constructor
  · intro hlen
    have hholds := hloaded'.holds_step hlen last
    rwa [List.take_of_length_le (by rw [length_endMarked])] at hholds
  · rw [hsm, hloaded'.pktPtr, hloaded'.pktEnd hpos rfl, BitVec.ofNat_add, add_assoc]
    rfl

/-- **When a frame from the CPU is stored**: if it has at most 4096 words. -/
theorem storesFrame_iff (s : CpuWriteSide ram) (words : List Word) (hne : words ≠ [])
    (hlen : words.length ≤ maxReservPktBuf) (ts : List (Transfer CpuWriteInput))
    (h : FrameWritten s words ts) (release last : CpuWriteInput) (hrelease : Releasing release) :
    StoresFrame words s
        (run CpuWriteSide.step s (ts.flatMap Transfer.cycles ++ [release, last])) ↔
      words.length ≤ 4096 := by
  obtain ⟨hholds, hptr⟩ := h.leaves hne hrelease last
  have hpos := List.length_pos_iff.2 hne
  constructor
  · rintro ⟨-, hadvanced⟩
    rw [hptr, add_right_inj] at hadvanced
    have hnat := congrArg BitVec.toNat hadvanced
    have hmax : words.length ≤ 4507 := hlen
    rw [toNat_ofNat_adrsize, toNat_ofNat_adrsize, bufAddr_eq] at hnat
    omega
  · intro hle
    refine ⟨hholds hle, ?_⟩
    rw [hptr, bufAddr_eq, Nat.mod_eq_of_lt (by omega), Nat.sub_add_cancel hpos]

/-- The two sides after the CPU was granted access. -/
def sampleWriter : CpuWriteSide (array txPktBufAdrsize 17) where
  regs := { Registers.reset with txRequest := true }
  tx := {
    sm := sampleMachine.toAccessByCpu (sampleCpuCycle { request := true }).1
    pseudoHeader := 0
    buffer := (fun _ => 0, 0) }

/-- The CPU writes a word of a frame. -/
def sampleWriteCycle (words : List Word) (k : ℕ) : CpuWriteInput where
  regs := { wbRxTx := {
    cyc := true, stb := true, we := true, adr := BitVec.ofNat 32 (4 * k)
    dat := 0#15 ++ BitVec.ofBool (decide (k + 1 = words.length)) ++ words.getD k 0 } }
  tx := (sampleCpuCycle {}).1

/-- The CPU writes a frame, one word after the other. -/
def sampleTransfers (words : List Word) : List (Transfer CpuWriteInput) :=
  (List.range words.length).map fun k =>
    .access (sampleWriteCycle words k) [sampleWriteCycle words k]

/-- The CPU releases its request. -/
def sampleRelease : CpuWriteInput where
  regs := { wbReg := { cyc := true, stb := true, we := true, adr := 0x28, dat := 0 } }
  tx := (sampleCpuCycle {}).1

theorem releasing_sample : Releasing sampleRelease := ⟨rfl, rfl, rfl, rfl⟩

theorem isWord_sample (words : List Word) (k : ℕ) :
    IsWord words k (sampleWriteCycle words k).bus := by
  refine ⟨rfl, ?_, ?_, ?_⟩
  · apply BitVec.eq_of_toNat_eq
    rw [toNat_ofNat_adrsize]
    change (BitVec.extractLsb' 2 txPktBufAdrsize (BitVec.ofNat 32 (4 * k))).toNat = _
    rw [BitVec.extractLsb'_toNat, BitVec.toNat_ofNat, Nat.shiftRight_eq_div_pow]
    change 4 * k % 4294967296 / 4 % 8192 = k % 8192
    omega
  · exact BitVec.extractLsb'_append_eq_right
  · change (0#15 ++ BitVec.ofBool _ ++ words.getD k 0).getLsbD 16 = _
    rw [BitVec.getLsbD_append, BitVec.getLsbD_append]
    simp

theorem transfers_sample (words : List Word) (ks : List ℕ)
    {s : CpuWriteSide (array txPktBufAdrsize 17)} (hack : s.ack = false) :
    Transfers CpuWriteSide.step CpuWriteSide.ack CpuWriteInput.bus s
      (ks.map fun k => .access (sampleWriteCycle words k) [sampleWriteCycle words k]) := by
  induction ks generalizing s with
  | nil => exact .nil
  | cons k ks ih =>
    have hclassic : Transfer.Classic CpuWriteSide.step CpuWriteSide.ack CpuWriteInput.bus s
        (.access (sampleWriteCycle words k) [sampleWriteCycle words k]) :=
      Transfer.classic_access ack_step hack rfl ⟨rfl, rfl, rfl, fun _ => rfl⟩
    exact .cons hclassic (ih (hclassic.ack_run ack_step hack))

/-- A frame of any length can be written so. -/
theorem frameWritten_sample (words : List Word) :
    FrameWritten sampleWriter words (sampleTransfers words) := by
  have hfirst : (sampleTransfers words).filterMap Transfer.first? =
      (List.range words.length).map (sampleWriteCycle words) := by
    rw [sampleTransfers, List.filterMap_map, ← List.filterMap_eq_map]
    rfl
  refine ⟨rfl, rfl, rfl, transfers_sample words _ rfl, ?_, ?_, ?_⟩
  · intro t ht c hc hwrite
    obtain ⟨k, -, rfl⟩ := List.mem_map.1 ht
    have hquiet : c.regs.wbReg.write = false := by
      rw [Transfer.cycles, List.mem_cons, List.mem_singleton, or_self] at hc
      rw [hc]
      rfl
    rw [hquiet] at hwrite
    cases hwrite
  · intro k c hc
    rw [hfirst, List.getElem?_map] at hc
    obtain ⟨j, hj, rfl⟩ := Option.map_eq_some_iff.1 hc
    obtain ⟨hlt, rfl⟩ := List.getElem?_eq_some_iff.1 hj
    rw [List.getElem_range]
    exact isWord_sample words k
  · rw [hfirst, List.length_map, List.length_range]

/-- Two words. -/
theorem storesFrame_iff_two :
    StoresFrame [0xA1, 0xA2] sampleWriter
        (run CpuWriteSide.step sampleWriter ((sampleTransfers [0xA1, 0xA2]).flatMap
          Transfer.cycles ++ [sampleRelease, sampleRelease])) ↔
      ([0xA1, 0xA2] : List Word).length ≤ 4096 :=
  storesFrame_iff sampleWriter [0xA1, 0xA2] (List.cons_ne_nil _ _) (by decide) _
    (frameWritten_sample _) sampleRelease sampleRelease releasing_sample

/-- Of a frame of 4097 words the packet pointer moves over the last one
only, which is in the place of the first. -/
theorem not_storesFrame_long :
    FrameWritten sampleWriter (List.replicate 4097 0)
        (sampleTransfers (List.replicate 4097 0)) ∧
      ¬ StoresFrame (List.replicate 4097 0) sampleWriter
        (run CpuWriteSide.step sampleWriter ((sampleTransfers (List.replicate 4097 0)).flatMap
          Transfer.cycles ++ [sampleRelease, sampleRelease])) := by
  refine ⟨frameWritten_sample _, ?_⟩
  rintro ⟨-, hadvanced⟩
  have hne : List.replicate 4097 (0 : Word) ≠ [] := by
    rw [List.replicate_succ]
    exact List.cons_ne_nil _ _
  have hptr := ((frameWritten_sample (List.replicate 4097 0)).leaves hne releasing_sample
    sampleRelease).2
  rw [hptr, List.length_replicate] at hadvanced
  revert hadvanced
  decide

end Ipmux

end WrCalibration
