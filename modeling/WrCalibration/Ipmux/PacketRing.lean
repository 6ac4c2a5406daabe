import WrCalibration.Ipmux.TxPkt2Mac

/-!
# Packets in a ring

A packet memory with two pointers, as a queue of packets: those between
the pointers one behind the other, and behind them the words of one that
has begun (`PacketRing`). Each thing a clock edge can do to it is a lemma
here: a word is written, the packet that has begun becomes the last of the
queue, the first packet is taken out. The flags of `PktBufFlags` are then
statements about the queue.
-/

namespace WrCalibration

namespace Ipmux

open GenericDpram

variable {abits : ℕ} {ram : GenericDpram abits 17} {buffer : ram.State}
  {rd wr : BitVec abits} {off k : ℕ} {p : List Word} {ps : List (List Word)}
  {begun : List (BitVec 17)}

/-- Packets in a row, as the memory holds them. -/
def packed (ps : List (List Word)) : List (BitVec 17) := ps.flatMap endMarked

@[simp] theorem packed_nil : packed [] = [] := rfl

@[simp] theorem packed_cons : packed (p :: ps) = endMarked p ++ packed ps := List.flatMap_cons

theorem packed_concat : packed (ps ++ [p]) = packed ps ++ endMarked p := by
  rw [packed, packed, List.flatMap_append, List.flatMap_singleton]

theorem length_packed_cons : (packed (p :: ps)).length = p.length + (packed ps).length := by
  rw [packed_cons, List.length_append, length_endMarked]

/-- **The queue** between two pointers, and `off` words of a packet that has
begun. -/
structure PacketRing (ram : GenericDpram abits 17) (buffer : ram.State) (rd wr : BitVec abits)
    (off : ℕ) (ps : List (List Word)) (begun : List (BitVec 17)) : Prop where
  held : ram.Holds buffer rd 0 (packed ps ++ begun)
  stop : wr = rd + BitVec.ofNat abits (packed ps).length
  offset : off = begun.length
  room : (packed ps).length + begun.length < 2 ^ abits

namespace PacketRing

/-- An empty queue. -/
theorem nil : PacketRing ram buffer rd rd 0 [] [] := by
  refine ⟨fun k hk => absurd hk (Nat.not_lt_zero k), ?_, rfl, Nat.two_pow_pos abits⟩
  simp

variable (h : PacketRing ram buffer rd wr off ps begun)
include h

/-! ## What an edge does -/

/-- The address of the next word, from the pointer of the reader. -/
theorem next_eq : wr + BitVec.ofNat abits off =
    rd + BitVec.ofNat abits (0 + (packed ps ++ begun).length) := by
  rw [h.stop, h.offset, List.length_append, Nat.zero_add, BitVec.ofNat_add, add_assoc]

/-- **The free space holds no word of the queue.** -/
theorem ne_of_free {j : ℕ} (hk : (packed ps).length + begun.length + k < 2 ^ abits)
    (hj : j < (packed ps ++ begun).length) :
    rd + BitVec.ofNat abits j ≠ wr + BitVec.ofNat abits (off + k) := by
  rw [List.length_append] at hj
  rw [BitVec.ofNat_add, ← add_assoc, h.next_eq, Nat.zero_add, List.length_append, add_assoc,
    ← BitVec.ofNat_add, Ne, RecordRing.add_ofNat_inj (by omega) hk]
  omega

/-- **A write to the free space** spares the queue. -/
theorem spare {we : Bool} {aa : BitVec abits}
    (hfree : we = true → ∃ k, (packed ps).length + begun.length + k < 2 ^ abits ∧
      aa = wr + BitVec.ofNat abits (off + k)) (w : BitVec 17) (b : BitVec abits) :
    PacketRing ram (ram.step buffer we aa w b) rd wr off ps begun := by
  refine ⟨h.held.step fun hwe j hj => ?_, h.stop, h.offset, h.room⟩
  obtain ⟨k, hk, haa⟩ := hfree hwe
  rw [haa, Nat.zero_add]
  exact h.ne_of_free hk hj

/-- Nothing is written. -/
theorem keep (aa b : BitVec abits) (w : BitVec 17) :
    PacketRing ram (ram.step buffer false aa w b) rd wr off ps begun :=
  h.spare (fun hwe => absurd hwe Bool.false_ne_true) w b

/-- **A word is written.** -/
theorem push (w : BitVec 17) (b : BitVec abits)
    (hroom : (packed ps).length + begun.length + 1 < 2 ^ abits) :
    PacketRing ram (ram.step buffer true (wr + BitVec.ofNat abits off) w b) rd wr (off + 1) ps
      (begun ++ [w]) := by
  have hheld := h.held.step_append (w := w) (b := b) (by
    rw [List.length_append]
    omega)
  rw [← h.next_eq, List.append_assoc] at hheld
  refine ⟨hheld, h.stop, ?_, ?_⟩
  · rw [h.offset, List.length_append, List.length_singleton]
  · rw [List.length_append, List.length_singleton]
    omega

omit h in
/-- A packet has begun that stands at the pointer. -/
theorem open_of_holds (h : PacketRing ram buffer rd wr 0 ps [])
    (hheld : ram.Holds buffer wr 0 begun)
    (hroom : (packed ps).length + begun.length < 2 ^ abits) :
    PacketRing ram buffer rd wr begun.length ps begun := by
  refine ⟨?_, h.stop, rfl, hroom⟩
  have hqueue := h.held
  rw [List.append_nil] at hqueue
  refine hqueue.append ?_
  rw [Nat.zero_add, ← holds_add, ← h.stop]
  exact hheld

/-- **The packet that has begun is the last one.** -/
theorem settle (hp : begun = endMarked p) :
    PacketRing ram buffer rd (wr + BitVec.ofNat abits off) 0 (ps ++ [p]) [] := by
  have hall : packed (ps ++ [p]) = packed ps ++ begun := by rw [packed_concat, hp]
  refine ⟨?_, ?_, rfl, ?_⟩
  · rw [List.append_nil, hall]
    exact h.held
  · rw [h.next_eq, Nat.zero_add, hall]
  · have hroom := h.room
    rw [hall, List.length_append, List.length_nil]
    omega

omit h in
/-- **The first packet is taken out.** -/
theorem pop (h : PacketRing ram buffer rd wr off (p :: ps) begun) :
    PacketRing ram buffer (rd + BitVec.ofNat abits p.length) wr off ps begun := by
  have hheld := h.held
  have hstop := h.stop
  have hroom := h.room
  rw [packed_cons, List.append_assoc] at hheld
  rw [length_packed_cons] at hstop hroom
  refine ⟨?_, ?_, h.offset, by omega⟩
  · rw [holds_add]
    simpa using hheld.right
  · rw [hstop, BitVec.ofNat_add, add_assoc]

omit h in
/-- The first packet, as its reader finds it. -/
theorem held_head (h : PacketRing ram buffer rd wr off (p :: ps) begun) :
    ram.Holds buffer rd 0 (endMarked p) := by
  have hheld := h.held
  rw [packed_cons, List.append_assoc] at hheld
  exact hheld.left

omit h in
/-- The next word is none of the first packet. -/
theorem next_ne (h : PacketRing ram buffer rd wr off (p :: ps) begun) (hk : k < p.length) :
    rd + BitVec.ofNat abits k ≠ wr + BitVec.ofNat abits off := by
  refine h.ne_of_free (k := 0) h.room ?_
  rw [List.length_append, length_packed_cons]
  omega

/-! ## The flags -/

theorem toNat_sub : (rd - wr).toNat = (2 ^ abits - (packed ps).length) % 2 ^ abits := by
  have hroom := h.room
  rw [h.stop, ← neg_sub, add_sub_cancel_left, BitVec.toNat_neg, BitVec.toNat_ofNat,
    Nat.mod_eq_of_lt (by omega : (packed ps).length < 2 ^ abits)]

theorem eq_iff : rd = wr ↔ (packed ps).length = 0 := by
  have hroom := h.room
  have hinj := RecordRing.add_ofNat_inj (a := rd) (Nat.two_pow_pos abits)
    (by omega : (packed ps).length < 2 ^ abits)
  rw [← h.stop] at hinj
  simpa [eq_comm] using hinj

/-- **`Empty`** is up where the queue is empty. -/
theorem empty_eq (hpos : ∀ p ∈ ps, 0 < p.length) :
    PktBufFlags.empty rd wr = decide (ps = []) := by
  rw [PktBufFlags.empty, decide_eq_decide, h.eq_iff]
  cases ps with
  | nil => simp
  | cons p ps =>
    have hp := hpos p (by simp)
    rw [length_packed_cons]
    exact iff_of_false (by omega) (List.cons_ne_nil p ps)

/-- **`Full`** is up where the longest packet might not find room. -/
theorem full_eq (hsize : maxReservPktBuf < 2 ^ abits) : PktBufFlags.full rd wr =
    decide (2 ^ abits ≤ (packed ps).length + maxReservPktBuf) := by
  have hroom := h.room
  rw [PktBufFlags.full, decide_eq_decide, BitVec.le_def, h.toNat_sub, BitVec.toNat_ofNat,
    Nat.mod_eq_of_lt hsize, Ne, h.eq_iff]
  rcases Nat.eq_zero_or_pos (packed ps).length with hzero | hpos
  · rw [hzero]
    omega
  · rw [Nat.mod_eq_of_lt (by omega)]
    omega

end PacketRing

end Ipmux

end WrCalibration
