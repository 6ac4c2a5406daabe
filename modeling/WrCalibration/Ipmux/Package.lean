import WrCalibration.Common.RecordRing
import Mathlib.Data.List.GetD

/-!
# What the blocks of the IP multiplexer share

The constants and records of `EMAC16bit_Package`, and the two-port memory
under the packet buffers. The memory comes from outside: `GenericDpram`
says what a synchronous memory with one cycle of latency does, and no
more.
-/

namespace WrCalibration

namespace Ipmux

/-! ## Constants -/

/-- Where the parts of a frame begin, in 16-bit words. -/
def macHdr : ℕ := 0x0

@[inherit_doc macHdr] def ipHdr : ℕ := 0x7

@[inherit_doc macHdr] def udpHdr : ℕ := 0x11

@[inherit_doc macHdr] def payload : ℕ := 0x15

/-- The lengths of the headers. -/
def macHdrCnt : ℕ := ipHdr - macHdr

@[inherit_doc macHdrCnt] def ipHdrCnt : ℕ := udpHdr - ipHdr

@[inherit_doc macHdrCnt] def udpHdrCnt : ℕ := payload - udpHdr

/-- Where the fields of a header are. -/
def macIdxLen : ℕ := 6

@[inherit_doc macIdxLen] def ipIdxVerLenTos : ℕ := 0

@[inherit_doc macIdxLen] def ipIdxLen : ℕ := 1

@[inherit_doc macIdxLen] def ipIdxId : ℕ := 2

@[inherit_doc macIdxLen] def ipIdxFlagsFragoff : ℕ := 3

@[inherit_doc macIdxLen] def ipIdxTtlProt : ℕ := 4

@[inherit_doc macIdxLen] def ipIdxChecks : ℕ := 5

@[inherit_doc macIdxLen] def ipIdxIpSrc : ℕ := 6

@[inherit_doc macIdxLen] def ipIdxIpDst : ℕ := 8

@[inherit_doc macIdxLen] def udpIdxSrcprt : ℕ := 0

@[inherit_doc macIdxLen] def udpIdxDstprt : ℕ := 1

@[inherit_doc macIdxLen] def udpIdxLen : ℕ := 2

@[inherit_doc macIdxLen] def udpIdxChecks : ℕ := 3

/-- The address widths of the packet buffers. -/
abbrev txPktBufAdrsize : ℕ := 13

@[inherit_doc txPktBufAdrsize] abbrev rxPktBufAdrsize : ℕ := 14

/-- The longest packet, without and with the MAC header. -/
def maxPktLen : ℕ := 9000 / 2

@[inherit_doc maxPktLen] def maxReservPktBuf : ℕ := maxPktLen + macHdrCnt

/-- General Ethernet, IP and UDP constants. -/
def ethTypeII : BitVec 16 := 0x0800

@[inherit_doc ethTypeII] def ipVerLen : BitVec 8 := 0x45

@[inherit_doc ethTypeII] def ipProtUdp : BitVec 8 := 0x11

/-- The number of streams; the CPU comes after them. -/
abbrev numUdpPrts : ℕ := 4

instance : NeZero numUdpPrts := ⟨by decide⟩

/-! ## Records -/

/-- A word of 16 bits. -/
abbrev Word := BitVec 16

/-- The high, middle or low word of an address, counted from the right. -/
def wordOf {w : ℕ} (k : ℕ) (x : BitVec w) : Word := x.extractLsb' (16 * k) 16

/-- A word in a sum of 32 bits. -/
def wide (w : Word) : BitVec 32 := w.setWidth 32

/-- `eth_regs_type` -/
structure EthRegs where
  macMod : BitVec 48
  macSrv : BitVec 48
  ipMod : BitVec 32
  ipSrv : BitVec 32
  udpSrvPrt : Fin numUdpPrts → Word
  udpModPrt : Fin numUdpPrts → Word

/-- `ipmux_cpu_in_type` -/
structure CpuTx where
  request : Bool := false
  eop : Bool := false
  d : Word := 0
  addr : BitVec txPktBufAdrsize := 0
  wrEn : Bool := false

/-- `dbus_type` -/
structure Dbus where
  d : Word
  eod : Bool
  deriving DecidableEq

/-- The addresses of `wr_fabric_pkg`: what a word on the fabric is. -/
structure WrFabric where
  wrfData : BitVec 2
  wrfOob : BitVec 2
  wrfStatus : BitVec 2
  oob_ne : wrfOob ≠ wrfData
  status_ne : wrfStatus ≠ wrfData

/-! ## The packet memory -/

/-- **A synchronous memory with two ports**, one that writes and one that
reads: a write is stored at the edge, and a read of another word appears
at the output after it. -/
structure GenericDpram (abits dbits : ℕ) where
  State : Type
  contents : State → BitVec abits → BitVec dbits
  qb : State → BitVec dbits
  step : State → Bool → BitVec abits → BitVec dbits → BitVec abits → State
  contents_step : ∀ s we aa da ab a,
    contents (step s we aa da ab) a = if we = true ∧ a = aa then da else contents s a
  qb_step : ∀ s we aa da ab, ¬ (we = true ∧ aa = ab) → qb (step s we aa da ab) = contents s ab

namespace GenericDpram

/-- The memory as an array and an output register. -/
def array (abits dbits : ℕ) : GenericDpram abits dbits where
  State := (BitVec abits → BitVec dbits) × BitVec dbits
  contents := Prod.fst
  qb := Prod.snd
  step s we aa da ab := (fun a => if we = true ∧ a = aa then da else s.1 a, s.1 ab)
  contents_step _ _ _ _ _ _ := rfl
  qb_step _ _ _ _ _ _ := rfl

section Holds

variable {abits dbits : ℕ} {ram : GenericDpram abits dbits} {s : ram.State} {base : BitVec abits}
  {off k : ℕ} {ws ws' : List (BitVec dbits)} {we : Bool} {w : BitVec dbits} {aa b : BitVec abits}

/-- The memory holds a list of words from an offset on; the addresses
wrap around. -/
def Holds (s : ram.State) (base : BitVec abits) (off : ℕ) (ws : List (BitVec dbits)) : Prop :=
  ∀ k (h : k < ws.length), ram.contents s (base + BitVec.ofNat abits (off + k)) = ws[k]

/-- A write to another word leaves what is held. -/
theorem Holds.step (h : ram.Holds s base off ws)
    (haa : we = true → ∀ k < ws.length, base + BitVec.ofNat abits (off + k) ≠ aa) :
    ram.Holds (ram.step s we aa w b) base off ws := by
  intro k hk
  rw [ram.contents_step, if_neg fun hw => haa hw.1 k hk hw.2]
  exact h k hk

/-- A write to an offset outside. -/
theorem Holds.step_of_outside (h : ram.Holds s base off ws) (hlen : off + ws.length ≤ 2 ^ abits)
    (hk : k < 2 ^ abits) (hout : k < off ∨ off + ws.length ≤ k) :
    ram.Holds (ram.step s we (base + BitVec.ofNat abits k) w b) base off ws :=
  h.step fun _ j hj => by
    rw [Ne, RecordRing.add_ofNat_inj (by omega) hk]
    omega

/-- A write behind the last word held. -/
theorem Holds.step_append (h : ram.Holds s base off ws) (hlen : off + ws.length < 2 ^ abits) :
    ram.Holds (ram.step s true (base + BitVec.ofNat abits (off + ws.length)) w b) base off
      (ws ++ [w]) := by
  intro k hk
  rw [List.length_append, List.length_singleton] at hk
  rw [ram.contents_step]
  rcases Nat.lt_or_ge k ws.length with hlt | hge
  · rw [if_neg fun hw => by
      have := (RecordRing.add_ofNat_inj (by omega) hlen).1 hw.2
      omega]
    rw [h k hlt, List.getElem_append_left hlt]
  · have hk' : k = ws.length := by omega
    subst hk'
    rw [if_pos ⟨rfl, rfl⟩, List.getElem_concat_length rfl]

/-- A write to a word held. -/
theorem Holds.step_set (h : ram.Holds s base off ws) (hlen : off + ws.length ≤ 2 ^ abits)
    (hk : k < ws.length) :
    ram.Holds (ram.step s true (base + BitVec.ofNat abits (off + k)) w b) base off
      (ws.set k w) := by
  intro j hj
  rw [List.length_set] at hj
  rw [ram.contents_step, List.getElem_set]
  by_cases hkj : k = j
  · subst hkj
    rw [if_pos ⟨rfl, rfl⟩, if_pos rfl]
  · rw [if_neg hkj, if_neg fun hw => by
      have := (RecordRing.add_ofNat_inj (by omega) (by omega)).1 hw.2
      omega]
    exact h j hj

theorem Holds.append (h : ram.Holds s base off ws) (h' : ram.Holds s base (off + ws.length) ws') :
    ram.Holds s base off (ws ++ ws') := by
  intro k hk
  rw [List.length_append] at hk
  rcases Nat.lt_or_ge k ws.length with hlt | hge
  · rw [List.getElem_append_left hlt]
    exact h k hlt
  · rw [List.getElem_append_right hge, ← h' (k - ws.length) (by omega)]
    congr 3
    omega

/-- The beginning of what is held. -/
theorem Holds.left (h : ram.Holds s base off (ws ++ ws')) : ram.Holds s base off ws := by
  intro k hk
  rw [h k (by rw [List.length_append]; omega), List.getElem_append_left hk]

/-- The rest of what is held. -/
theorem Holds.right (h : ram.Holds s base off (ws ++ ws')) :
    ram.Holds s base (off + ws.length) ws' := by
  intro k hk
  have hword := h (ws.length + k) (by rw [List.length_append]; omega)
  rw [List.getElem_append_right (Nat.le_add_right _ _), ← Nat.add_assoc] at hword
  simpa only [Nat.add_sub_cancel_left] using hword

/-- An offset in front of the others. -/
theorem holds_add : ram.Holds s (base + BitVec.ofNat abits off) 0 ws ↔ ram.Holds s base off ws := by
  refine forall₂_congr fun j _ => ?_
  rw [Nat.zero_add, BitVec.ofNat_add, add_assoc]

/-- An array that begins with a list of words. -/
theorem holds_getD (h : ws.length ≤ 2 ^ abits) (q : BitVec dbits) :
    (array abits dbits).Holds (fun a => ws.getD a.toNat 0, q) 0 0 ws := by
  intro k hk
  have haddr : (0 + BitVec.ofNat abits (0 + k)).toNat = k := by
    rw [zero_add, zero_add, BitVec.toNat_ofNat, Nat.mod_eq_of_lt (by omega)]
  change ws.getD (0 + BitVec.ofNat abits (0 + k)).toNat 0 = _
  rw [haddr, List.getD_eq_getElem _ _ hk]

end Holds

end GenericDpram

/-- A word of a packet memory: the end-of-packet bit over the data. -/
def packetWord (eop : Bool) (d : Word) : BitVec 17 := BitVec.ofBool eop ++ d

/-- The two parts of a word of a packet memory. -/
def packetData (w : BitVec 17) : Word := w.extractLsb' 0 16

@[inherit_doc packetData] def packetEop (w : BitVec 17) : Bool := w.getLsbD 16

/-- A word of a packet memory, on a data bus. -/
def packetDbus (w : BitVec 17) : Dbus where
  d := packetData w
  eod := packetEop w

@[simp] theorem packetData_packetWord (eop : Bool) (d : Word) :
    packetData (packetWord eop d) = d := by
  cases eop
  · simp only [packetData, packetWord]
    exact BitVec.extractLsb'_append_eq_right
  · simp only [packetData, packetWord]
    exact BitVec.extractLsb'_append_eq_right

@[simp] theorem packetEop_packetWord (eop : Bool) (d : Word) :
    packetEop (packetWord eop d) = eop := by
  rw [packetEop, packetWord, BitVec.getLsbD_append]
  simp

/-- A packet in a packet memory: the bit on its last word only. -/
def endMarked : List Word → List (BitVec 17)
  | [] => []
  | [w] => [packetWord true w]
  | w :: w' :: ws => packetWord false w :: endMarked (w' :: ws)

@[simp] theorem length_endMarked (ws : List Word) : (endMarked ws).length = ws.length := by
  fun_induction endMarked ws with
  | case1 => rfl
  | case2 => rfl
  | case3 w w' ws ih => simp only [List.length_cons, ih]

theorem endMarked_append {ws' : List Word} (h : ws' ≠ []) (ws : List Word) :
    endMarked (ws ++ ws') = ws.map (packetWord false) ++ endMarked ws' := by
  induction ws with
  | nil => rfl
  | cons w ws ih =>
    obtain ⟨w', rest, hrest⟩ := List.exists_cons_of_ne_nil (List.append_ne_nil_of_right_ne_nil ws h)
    rw [List.cons_append, hrest, endMarked, ← hrest, ih, List.map_cons, List.cons_append]

theorem getElem_endMarked {ws : List Word} {k : ℕ} (h : k < (endMarked ws).length) :
    (endMarked ws)[k] = packetWord (decide (k + 1 = ws.length)) (ws.getD k 0) := by
  induction ws generalizing k with
  | nil => cases h
  | cons w ws ih =>
    rcases ws with _ | ⟨w', ws⟩
    · have hk : k = 0 := by simpa [endMarked] using h
      subst hk
      rfl
    · cases k with
      | zero => simp [endMarked]
      | succ k =>
        have hk : k < (endMarked (w' :: ws)).length := by simpa [endMarked] using h
        have hrest := ih hk
        simp only [endMarked, List.getElem_cons_succ]
        rw [hrest]
        simp

/-- A word of a packet, and whether it is the last one. -/
theorem getElem?_endMarked {ws : List Word} {k : ℕ} {w : BitVec 17}
    (h : (endMarked ws)[k]? = some w) :
    ws[k]? = some (packetData w) ∧ packetEop w = decide (k + 1 = ws.length) := by
  obtain ⟨hk, hw⟩ := List.getElem?_eq_some_iff.1 h
  rw [getElem_endMarked] at hw
  rw [length_endMarked] at hk
  rw [← hw, packetData_packetWord, packetEop_packetWord, List.getD_eq_getElem _ _ hk]
  exact ⟨List.getElem?_eq_getElem hk, rfl⟩

/-- A word in front of the last one, exchanged. -/
theorem endMarked_set {ws : List Word} {k : ℕ} (h : k + 1 < ws.length) (d : Word) :
    (endMarked ws).set k (packetWord false d) = endMarked (ws.set k d) := by
  refine List.ext_getElem (by simp) fun j hj hj' => ?_
  rw [List.getElem_set, getElem_endMarked, getElem_endMarked, List.length_set]
  by_cases hkj : k = j
  · subst hkj
    rw [if_pos rfl, decide_eq_false (by omega), List.getD_eq_getElem _ _ (by simp; omega),
      List.getElem_set_self]
  · rw [if_neg hkj, List.getD_eq_getElem?_getD, List.getD_eq_getElem?_getD,
      List.getElem?_set_ne hkj]

/-- A payload on a bus: its words in their order, the end of data on the
last one. -/
theorem packetDbus_endMarked {ws : List Word} (h : ws ≠ []) :
    ((endMarked ws).map packetDbus).map Dbus.d = ws ∧
      ((endMarked ws).map packetDbus).map Dbus.eod =
        List.replicate (ws.length - 1) false ++ [true] := by
  fun_induction endMarked ws with
  | case1 => exact absurd rfl h
  | case2 w => simp [packetDbus]
  | case3 w w' ws ih =>
    obtain ⟨hd, heod⟩ := ih (by simp)
    constructor
    · rw [List.map_cons, List.map_cons, hd, packetDbus, packetData_packetWord]
    · rw [List.map_cons, List.map_cons, heod, packetDbus, packetEop_packetWord]
      rfl

end Ipmux

end WrCalibration
