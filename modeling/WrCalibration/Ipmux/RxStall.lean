import WrCalibration.Ipmux.RxResync
import Mathlib.Data.Nat.Count

/-!
# A stream that is full now and then

While its stream is full the machine takes the address back: the word it
did not pass on is shown again (`Stalled`). That is right in the payload.
Behind it, where only the end of the frame is waited for, the last word is
recognised while it is shown for the first time, and the address has not
moved behind it yet.
-/

namespace WrCalibration

namespace Ipmux

open Clocked GenericDpram RxBuf2Data

variable {ram : GenericDpram rxPktBufAdrsize 17} {frame : List Word} {n : ℕ} {port : Word}
  {base : BitVec rxPktBufAdrsize} {s : RxReadSide ram} {c : RxInput} {cs : ℕ → RxInput}
  {j : Fin numUdpPrts}

/-! ## One cycle -/

/-- **Held up** after `t` words of the payload or the padding: the next one
is shown, and its address again. -/
structure Stalled (frame : List Word) (n : ℕ) (base : BitVec rxPktBufAdrsize)
    (j : Fin numUdpPrts) (t : ℕ) (s : RxReadSide ram) : Prop where
  state : s.sm.state = .transferData
  offset : s.sm.offset = payload + t
  pktPtr : s.sm.pktPtr = base
  errorVector : s.sm.errorVector = 0
  wrReqIntern : s.sm.wrReqIntern = false
  streamIntern : s.sm.streamIntern = onlyStream j
  payloadLength : s.sm.payloadLength.toNat = n - t
  q : s.q = packetWord (decide (payload + t + 1 = frame.length)) (frame.getD (payload + t) 0)
  held : ram.Holds s.buffer base 0 (endMarked frame)

/-- A cycle in which the stream is full. -/
theorem stalled_of_full {t : ℕ} {din : Word} (hsm : (s.step c).sm = s.sm.transferData din true)
    (hoffset : s.sm.offset = payload + t) (hptr : s.sm.pktPtr = base)
    (herror : s.sm.errorVector = 0)
    (hstream : s.sm.streamIntern = onlyStream j) (hcount : s.sm.payloadLength.toNat = n - t)
    (hheld : ram.Holds s.buffer base 0 (endMarked frame)) (ht : payload + t < frame.length)
    (hc : Spares base frame c) : Stalled frame n base j t (s.step c) := by
  have hq := q_step hheld hc hptr hoffset ht
  constructor <;> try rw [hsm]
  · rfl
  · exact hoffset
  · exact hptr
  · exact herror
  · rfl
  · exact hstream
  · exact hcount
  · exact hq
  · exact held_step hheld hc

theorem Picked.stalled (h : Picked frame n base j s) (hfull : c.full j.castSucc = true)
    (hlen : payload < frame.length) (hc : Spares base frame c) :
    Stalled frame n base j 0 (s.step c) :=
  stalled_of_full (hfull ▸ h.step_sm) h.offset h.pktPtr h.errorVector h.streamIntern
    h.payloadLength h.held hlen hc

theorem Transferring.stalled {t : ℕ} (h : Transferring frame n base j t s)
    (hfull : c.full j.castSucc = true) (ht : payload + t + 1 < frame.length)
    (hc : Spares base frame c) : Stalled frame n base j (t + 1) (s.step c) :=
  stalled_of_full (hfull ▸ h.step_sm ht) h.offset h.pktPtr h.errorVector h.streamIntern
    h.payloadLength h.held ht hc

/-- Before the end of the frame, or with a word of the payload missing, the
transfer goes on. -/
theorem Stalled.step_sm {t : ℕ} (h : Stalled frame n base j t s)
    (hgoes : payload + t + 1 < frame.length ∨ t < n) :
    (s.step c).sm = s.sm.transferData (packetData s.q) (c.full j.castSucc) := by
  have hfull : fullout s.sm.streamIntern c.full = c.full j.castSucc := by
    rw [h.streamIntern, fullout_onlyStream]
  have hzero : s.sm.payloadLength = 0 ↔ n ≤ t := by
    rw [← BitVec.toNat_inj, h.payloadLength]
    exact Nat.sub_eq_zero_iff_le
  have hcond : ¬ (packetEop s.q && decide (s.sm.payloadLength = 0)) = true := by
    rw [h.q, packetEop_packetWord, Bool.and_eq_true, decide_eq_true_iff, decide_eq_true_iff, hzero]
    omega
  change s.sm.step _ _ _ _ _ = _
  rw [RxBuf2Data.step, h.state, hfull]
  exact if_neg hcond

theorem Stalled.stalled {t : ℕ} (h : Stalled frame n base j t s)
    (hgoes : payload + t + 1 < frame.length ∨ t < n) (hfull : c.full j.castSucc = true)
    (ht : payload + t < frame.length) (hc : Spares base frame c) :
    Stalled frame n base j t (s.step c) :=
  stalled_of_full (hfull ▸ h.step_sm hgoes) h.offset h.pktPtr h.errorVector h.streamIntern
    h.payloadLength h.held ht hc

/-- With room in the stream the word is passed on. -/
theorem Stalled.transferring {t : ℕ} (h : Stalled frame n base j t s)
    (hgoes : payload + t + 1 < frame.length ∨ t < n) (hfull : c.full j.castSucc = false)
    (ht : payload + t < frame.length) (hc : Spares base frame c) :
    Transferring frame n base j t (s.step c) := by
  have hsm : (s.step c).sm = s.sm.transferData (packetData s.q) false := by
    rw [h.step_sm hgoes, hfull]
  exact transferring_of_room hsm h.offset h.pktPtr h.errorVector h.streamIntern h.payloadLength
    h.held ht hc

/-- **The end of the frame, recognised too early.** -/
theorem Stalled.waiting {t : ℕ} (h : Stalled frame n base j t s)
    (ht : payload + t + 1 = frame.length) (hn : n ≤ t) :
    Waiting (base + BitVec.ofNat rxPktBufAdrsize (payload + t)) (s.step c).sm := by
  have hzero : s.sm.payloadLength = 0 := by
    have hcount := h.payloadLength
    rw [Nat.sub_eq_zero_of_le hn] at hcount
    exact BitVec.eq_of_toNat_eq hcount
  have hsm : (s.step c).sm = (s.sm.finalizeUdpCheckSum (packetData s.q)).nextPacket := by
    simp [RxReadSide.step, RxBuf2Data.step, h.state, h.q, ht, hzero]
  rw [hsm, ← h.offset, ← h.pktPtr]
  exact waiting_nextPacket (s.sm.finalizeUdpCheckSum (packetData s.q))

/-! ## A pass -/

/-- **Where the machine is** after some cycles in which the stream had
room, and whether it had in the last one. -/
inductive AtOpen (frame : List Word) (n : ℕ) (base : BitVec rxPktBufAdrsize)
    (j : Fin numUdpPrts) : ℕ → Bool → RxReadSide ram → Prop
  | transferring {t : ℕ} {s : RxReadSide ram} : payload + t + 1 ≤ frame.length →
    Transferring frame n base j t s → AtOpen frame n base j (t + 1) false s
  | stalled {t : ℕ} {s : RxReadSide ram} : payload + t + 1 ≤ frame.length →
    Stalled frame n base j t s → AtOpen frame n base j t true s

/-- The end of the frame is shown, and nothing of the payload is missing. -/
def Ends (len n : ℕ) (z : ℕ) (full : Bool) : Prop :=
  if full then payload + z + 1 = len ∧ n ≤ z else payload + z = len

variable {z : ℕ} {full : Bool}

theorem AtOpen.pos_le (h : AtOpen frame n base j z full s) : payload + z ≤ frame.length := by
  cases h with
  | transferring ht _ => omega
  | stalled ht _ => omega

theorem AtOpen.state (h : AtOpen frame n base j z full s) : s.sm.state = .transferData := by
  cases h with
  | transferring _ h => exact h.state
  | stalled _ h => exact h.state

theorem Picked.atOpen (h : Picked frame n base j s) (hlen : payload < frame.length)
    (hc : Spares base frame c) :
    AtOpen frame n base j (if c.full j.castSucc = false then 1 else 0) (c.full j.castSucc)
      (s.step c) := by
  cases hfull : c.full j.castSucc with
  | false => exact .transferring hlen (h.transferring hfull hlen hc)
  | true => exact .stalled hlen (h.stalled hfull hlen hc)

theorem AtOpen.offset (h : AtOpen frame n base j z full s) : s.sm.offset = payload + z := by
  cases h with
  | transferring _ h => exact h.offset
  | stalled _ h => exact h.offset

/-- **One cycle of a transfer** that does not end. -/
theorem AtOpen.step (h : AtOpen frame n base j z full s) (hend : ¬ Ends frame.length n z full)
    (hc : Spares base frame c) :
    AtOpen frame n base j (z + if c.full j.castSucc = false then 1 else 0) (c.full j.castSucc)
      (s.step c) := by
  cases h with
  | @transferring t _ ht h =>
    have hlt : payload + t + 1 < frame.length := by
      simp only [Ends, Bool.false_eq_true, if_false] at hend
      omega
    cases hfull : c.full j.castSucc with
    | false => exact .transferring (by omega) (h.step hfull hlt hc)
    | true => exact .stalled (t := t + 1) hlt (h.stalled hfull hlt hc)
  | @stalled t _ ht h =>
    have hgoes : payload + z + 1 < frame.length ∨ z < n := by
      simp only [Ends, if_true] at hend
      omega
    cases hfull : c.full j.castSucc with
    | false => exact .transferring ht (h.transferring hgoes hfull ht hc)
    | true => exact .stalled ht (h.stalled hgoes hfull ht hc)

/-- **Its end**: the pointer moves to where the offset is. -/
theorem AtOpen.waiting (h : AtOpen frame n base j z full s) (hend : Ends frame.length n z full)
    (hn : payload + n ≤ frame.length) :
    Waiting (base + BitVec.ofNat rxPktBufAdrsize (payload + z)) (s.step c).sm := by
  cases h with
  | @transferring t _ ht h =>
    simp only [Ends, Bool.false_eq_true, if_false] at hend
    rw [hend]
    exact h.waiting (by omega) (by omega)
  | @stalled t _ ht h =>
    simp only [Ends, if_true] at hend
    exact h.waiting hend.1 hend.2

/-- The words of the payload, on the bus of their stream. -/
def payloadOut (frame : List Word) (n : ℕ) : List Dbus :=
  (endMarked (part payload (payload + n) frame)).map packetDbus

theorem length_payloadOut (hlen : payload + n ≤ frame.length) :
    (payloadOut frame n).length = n := by
  rw [payloadOut, List.length_map, length_endMarked, part, List.length_drop, List.length_take]
  omega

theorem getElem?_payloadOut (hlen : payload + n ≤ frame.length) (t : ℕ) :
    (payloadOut frame n)[t]? =
      if t < n then some { d := frame.getD (payload + t) 0, eod := decide (t + 1 = n) }
      else none := by
  by_cases ht : t < n
  · rw [if_pos ht, payloadOut, ← map_range'_payload hlen, List.getElem?_map,
      List.getElem?_eq_getElem (by rwa [List.length_range']), List.getElem_range', Option.map_some]
    have hword : payload + 4 + 1 * t - 4 = payload + t := by omega
    have heod : payload + 4 + 1 * t - 3 = payload + n ↔ t + 1 = n := by omega
    rw [hword, decide_eq_decide.2 heod]
  · rw [if_neg ht, List.getElem?_eq_none_iff, length_payloadOut hlen]
    omega

/-- How many words of the payload, or the padding, are written. -/
def doneOf (z : ℕ) (full : Bool) : ℕ := if full then z else z - 1

/-- What a cycle writes to the stream of the frame. -/
theorem AtOpen.written (h : AtOpen frame n base j z full s)
    (hlen : payload + n ≤ frame.length) :
    (payloadOut frame n).take (doneOf z full) ++
        (RxReadSide.written j.castSucc (s, c)).toList = (payloadOut frame n).take z := by
  cases h with
  | @transferring t _ ht h =>
    change (payloadOut frame n).take t ++ _ = (payloadOut frame n).take (t + 1)
    rw [List.take_add_one, getElem?_payloadOut hlen]
    by_cases htn : t < n
    · rw [if_pos htn]
      simp [RxReadSide.written, rxStreamSel, h.streamIntern, h.wrReqIntern, h.eodOut, h.q,
        onlyStream, htn]
    · rw [if_neg htn, written_of_quiet (by rw [h.wrReqIntern, decide_eq_false htn])]
  | stalled _ h =>
    rw [written_of_quiet h.wrReqIntern, Option.toList_none, List.append_nil]
    rfl

/-- Nothing is written to any other stream. -/
theorem AtOpen.written_of_ne (h : AtOpen frame n base j z full s) {k : Fin (numUdpPrts + 1)}
    (hk : k ≠ j.castSucc) : RxReadSide.written k (s, c) = none := by
  cases h with
  | transferring _ h => simp [RxReadSide.written, rxStreamSel, h.streamIntern, onlyStream, hk]
  | stalled _ h => exact written_of_quiet h.wrReqIntern

/-! ## The run -/

/-- The cycles, from the first one of the transfer on, in which a stream has
room. -/
def opens (cs : ℕ → RxInput) (j : Fin numUdpPrts) (m : ℕ) : ℕ :=
  Nat.count (fun k => payload + 3 ≤ k ∧ (cs k).full j.castSucc = false) m

theorem opens_succ {m : ℕ} (hm : payload + 3 ≤ m) : opens cs j (m + 1) =
    opens cs j m + if (cs m).full j.castSucc = false then 1 else 0 := by
  rw [opens, Nat.count_succ, opens]
  simp only [hm, true_and]

theorem opens_succ_of_full {m : ℕ} (hm : payload + 3 ≤ m) (hfull : (cs m).full j.castSucc = true) :
    opens cs j (m + 1) = opens cs j m := by
  rw [opens_succ hm, hfull]
  rfl

/-- With room again and again there is room any number of times. -/
theorem exists_opens_eq (hroom : ∀ N, ∃ m, N ≤ m ∧ (cs m).full j.castSucc = false) (z : ℕ) :
    ∃ m, payload + 3 ≤ m ∧ z ≤ opens cs j m := by
  induction z with
  | zero => exact ⟨payload + 3, Nat.le_refl _, Nat.zero_le _⟩
  | succ z ih =>
    obtain ⟨m, hm, hz⟩ := ih
    obtain ⟨m', hm', hopen⟩ := hroom m
    refine ⟨m' + 1, by omega, ?_⟩
    have hmono : opens cs j m ≤ opens cs j m' := Nat.count_monotone _ hm'
    rw [opens_succ (by omega), if_pos hopen]
    omega

theorem opens_eq_zero {m : ℕ} (hm : m ≤ payload + 3) : opens cs j m = 0 := by
  rw [opens, Nat.count_iff_forall_not]
  intro k hk hopen
  omega

theorem opens_le {m m' : ℕ} (h : m ≤ m') : opens cs j m ≤ opens cs j m' := Nat.count_monotone _ h

theorem doneOf_add (z : ℕ) (full : Bool) : doneOf (z + if full = false then 1 else 0) full = z := by
  cases full <;> rfl

section Run

variable (h : Waiting base s.sm) (hheld : ram.Holds s.buffer base 0 (endMarked frame))
  (hframe : UdpFrame frame n port) (hempty : (cs 0).empty = false)
  (hport : ∀ k, (cs (payload + 2)).ethRegs.udpModPrt k = port ↔ k = j)
  (hcs : ∀ m, Spares base frame (cs m))
include h hheld hframe hempty hport hcs

/-- The headers. -/
theorem atCycle_upTo {m : ℕ} (hm : 0 < m) (hm' : m ≤ payload + 3) :
    AtCycle frame n base j m (run RxReadSide.step s (upTo cs m)) := by
  have hlen := hframe.length
  have hpos := hframe.pos
  refine run_upTo_counted ?_ (fun m s _ hm hs => ?_) hm
  · rw [run_upTo_succ]
    exact .reading (by decide) (by decide) (h.reading hempty hheld (hcs 0) (by omega))
  · refine hs.step_header hframe (by omega) ?_ (hcs m)
    rintro rfl
    exact hport

theorem picked_upTo : Picked frame n base j (run RxReadSide.step s (upTo cs (payload + 3))) := by
  have hlen := hframe.length
  have hpos := hframe.pos
  exact (atCycle_upTo h hheld hframe hempty hport hcs (by decide) (Nat.le_refl _)).picked_of_eq rfl
    (by omega)

/-- In the headers the offset is small. -/
theorem offset_headers {m : ℕ} (hm : m ≤ payload + 3) :
    (run RxReadSide.step s (upTo cs m)).sm.offset ≤ payload + 1 := by
  have hlen := hframe.length
  have hpos := hframe.pos
  rcases Nat.eq_zero_or_pos m with rfl | hpos'
  · exact h.offset.trans_le (Nat.zero_le _)
  · rcases Nat.lt_or_ge m (payload + 3) with hlt | hge
    · exact (busy_headers h hempty hpos' (by omega)).2
    · obtain rfl : m = payload + 3 := by omega
      rw [(picked_upTo h hheld hframe hempty hport hcs).offset]
      omega

/-- In the headers nothing is written. -/
theorem written_headers {m : ℕ} (hm : m ≤ payload + 4) (k : Fin (numUdpPrts + 1)) :
    (trace RxReadSide.step s (upTo cs m)).filterMap (RxReadSide.written k) = [] := by
  induction m with
  | zero => rfl
  | succ m ih =>
    rw [filterMap_trace_upTo_succ, ih (by omega), List.nil_append, Option.toList_eq_nil_iff]
    rcases Nat.eq_zero_or_pos m with rfl | hpos
    · exact written_of_quiet h.wrReqIntern
    · cases atCycle_upTo h hheld hframe hempty hport hcs hpos (by omega) with
      | reading _ _ h => exact written_of_quiet h.wrReqIntern
      | checked h => exact written_of_quiet h.wrReqIntern
      | picked h => exact written_of_quiet h.wrReqIntern
      | transferring _ _ => omega
      | waiting _ =>
        have hlen := hframe.length
        have hpos := hframe.pos
        omega

/-- **Up to its return** the machine transfers the frame. -/
theorem atOpen_upTo {m : ℕ} (hm : payload + 3 ≤ m)
    (hbusy : ∀ i, payload + 4 < i → i ≤ m + 1 → ¬ (run RxReadSide.step s (upTo cs i)).Idle) :
    AtOpen frame n base j (opens cs j (m + 1)) ((cs m).full j.castSucc)
        (run RxReadSide.step s (upTo cs (m + 1))) ∧
      ∀ k, (trace RxReadSide.step s (upTo cs (m + 1))).filterMap (RxReadSide.written k) =
        if k = j.castSucc then
          (payloadOut frame n).take (doneOf (opens cs j (m + 1)) ((cs m).full j.castSucc))
        else [] := by
  have hlen := hframe.length
  have hpos := hframe.pos
  induction m, hm using Nat.le_induction with
  | base =>
    rw [run_upTo_succ, opens_succ (Nat.le_refl _), doneOf_add, opens_eq_zero (Nat.le_refl _),
      Nat.zero_add]
    refine ⟨(picked_upTo h hheld hframe hempty hport hcs).atOpen (by omega) (hcs _), fun k => ?_⟩
    rw [written_headers h hheld hframe hempty hport hcs (Nat.le_refl _), List.take_zero, ite_self]
  | succ m hm ih =>
    obtain ⟨hat, hwritten⟩ := ih fun i hi hle => hbusy i hi (by omega)
    rw [run_upTo_succ, opens_succ (by omega), doneOf_add]
    refine ⟨hat.step (fun hend => ?_) (hcs _), fun k => ?_⟩
    · refine hbusy (m + 2) (by omega) (Nat.le_refl _) ?_
      rw [run_upTo_succ]
      exact (hat.waiting hend hlen).state
    · rw [filterMap_trace_upTo_succ, hwritten]
      by_cases hk : k = j.castSucc
      · subst hk
        rw [if_pos rfl, if_pos rfl, hat.written hlen]
      · rw [if_neg hk, if_neg hk, hat.written_of_ne hk]
        rfl

/-- **The return**: the cycle before it ends the frame. -/
theorem exists_return (hroom : ∀ N, ∃ m, N ≤ m ∧ (cs m).full j.castSucc = false) :
    ∃ m, payload + 3 ≤ m ∧ FirstReturn RxReadSide.Idle RxReadSide.step s cs (m + 2) ∧
      Ends frame.length n (opens cs j (m + 1)) ((cs m).full j.castSucc) ∧
      (run RxReadSide.step s (upTo cs (m + 2))).sm.pktPtr =
        base + BitVec.ofNat rxPktBufAdrsize (payload + opens cs j (m + 1)) ∧
      (run RxReadSide.step s (upTo cs (m + 1))).sm.offset = payload + opens cs j (m + 1) ∧
      (∀ i ≤ m + 2, (run RxReadSide.step s (upTo cs i)).sm.offset ≤ frame.length) ∧
      ∀ k, (trace RxReadSide.step s (upTo cs (m + 2))).filterMap (RxReadSide.written k) =
        if k = j.castSucc then (payloadOut frame n).take (opens cs j (m + 1)) else [] := by
  have hlen := hframe.length
  have hpos := hframe.pos
  have hat := fun m => atOpen_upTo h hheld hframe hempty hport hcs (m := m)
  -- the stream has room more often than the frame has words
  obtain ⟨m₀, hm₀, hopens⟩ := exists_opens_eq hroom (frame.length + 1)
  have hback : ∃ i, payload + 4 < i ∧ (run RxReadSide.step s (upTo cs i)).Idle := by
    by_contra hnever
    have hlong := (hat m₀ hm₀ fun i hi _ hidle => hnever ⟨i, hi, hidle⟩).1.pos_le
    have hmono : opens cs j m₀ ≤ opens cs j (m₀ + 1) := opens_le (Nat.le_succ m₀)
    omega
  obtain ⟨i, hi, hidle⟩ := hback
  -- the first return is not before the payload
  obtain ⟨M, -, hM⟩ := exists_firstReturn (by omega) hidle
  have hafter : payload + 4 < M := by
    by_contra hle
    rcases Nat.lt_or_ge M (payload + 4) with hlt | hge
    · exact (atCycle_upTo h hheld hframe hempty hport hcs hM.pos (by omega)).state_ne (by omega)
        hM.back
    · obtain rfl : M = payload + 3 + 1 := by omega
      have hstate :=
        (hat (payload + 3) (Nat.le_refl _) fun i hi hle => absurd hle (by omega)).1.state
      have hback := hM.back
      rw [RxReadSide.Idle, hstate] at hback
      cases hback
  obtain ⟨m, rfl⟩ : ∃ m, M = m + 2 := ⟨M - 2, by omega⟩
  obtain ⟨hopen, hwritten⟩ := hat m (by omega) fun i hi hle => hM.busy i (by omega) (by omega)
  have hend : Ends frame.length n (opens cs j (m + 1)) ((cs m).full j.castSucc) := by
    by_contra hgoes
    have hstate := (hopen.step hgoes (hcs (m + 1))).state
    have hback := hM.back
    rw [run_upTo_succ, RxReadSide.Idle, hstate] at hback
    cases hback
  have hwaiting : Waiting (base + BitVec.ofNat rxPktBufAdrsize (payload + opens cs j (m + 1)))
      (run RxReadSide.step s (upTo cs (m + 2))).sm := by
    rw [run_upTo_succ]
    exact hopen.waiting hend hlen
  refine ⟨m, by omega, hM, hend, hwaiting.pktPtr, hopen.offset, fun i hi => ?_, fun k => ?_⟩
  · rcases Nat.lt_or_ge (payload + 3) i with hafter | hbefore
    · obtain ⟨i, rfl⟩ := Nat.exists_eq_add_of_lt hafter
      rcases Nat.eq_or_lt_of_le hi with heq | hlt
      · rw [heq, hwaiting.offset]
        exact Nat.zero_le _
      · have hat' :=
          (hat (payload + 3 + i) (by omega) fun i _ _ => hM.busy i (by omega) (by omega)).1
        rw [hat'.offset]
        exact hat'.pos_le
    · have hheaders := offset_headers h hheld hframe hempty hport hcs hbefore
      omega
  · rw [filterMap_trace_upTo_succ, hwritten]
    by_cases hk : k = j.castSucc
    · subst hk
      rw [if_pos rfl, if_pos rfl, hopen.written hlen]
    · rw [if_neg hk, if_neg hk, hopen.written_of_ne hk]
      rfl

/-- A stream that is full at the last word of a frame with padding: the machine
ends the frame there, one word too early. -/
theorem idle_of_full {m : ℕ} (hm : payload + 3 ≤ m) (hfull : (cs m).full j.castSucc = true)
    (hlast : opens cs j m + payload + 1 = frame.length) (hpad : frame.length ≠ payload + n)
    (hbusy : ∀ i, payload + 4 < i → i ≤ m + 1 → ¬ (run RxReadSide.step s (upTo cs i)).Idle) :
    (run RxReadSide.step s (upTo cs (m + 2))).Idle := by
  have hlen := hframe.length
  have hat := (atOpen_upTo h hheld hframe hempty hport hcs hm hbusy).1
  rw [opens_succ_of_full hm hfull, hfull] at hat
  have hends : Ends frame.length n (opens cs j m) true := by
    simp only [Ends, if_true]
    omega
  rw [run_upTo_succ]
  exact (hat.waiting hends hlen).state

end Run

/-- A stream may be full at any time: the payload goes to it, word for word,
and the machine comes back with the pointer behind the frame, and on the way the
offset stays in its range. -/
def Transparent (s : RxReadSide ram) (cs : ℕ → RxInput) (frame : List Word) (n : ℕ)
    (j : Fin numUdpPrts) : Prop :=
  ∃ M, FirstReturn RxReadSide.Idle RxReadSide.step s cs M ∧
    (∀ m ≤ M, (run RxReadSide.step s (upTo cs m)).sm.offset ≤ maxReservPktBuf) ∧
    (∀ k, (trace RxReadSide.step s (upTo cs M)).filterMap (RxReadSide.written k) =
      if k = j.castSucc then payloadOut frame n else []) ∧
    (run RxReadSide.step s (upTo cs M)).sm.pktPtr =
      s.sm.pktPtr + BitVec.ofNat rxPktBufAdrsize frame.length

/-- The stream is full in the cycle in which the last word of the frame is
shown for the first time: it had room for all words but that one. -/
def FullAtEnd (cs : ℕ → RxInput) (j : Fin numUdpPrts) (len : ℕ) : Prop :=
  ∃ m, (cs m).full j.castSucc = true ∧ opens cs j m + payload + 1 = len

/-- One word before the end is not the end. -/
theorem ofNat_succ_ne (k : ℕ) : base + BitVec.ofNat rxPktBufAdrsize k ≠
    base + BitVec.ofNat rxPktBufAdrsize (k + 1) := by
  have hsize : 2 ^ rxPktBufAdrsize = 16384 := rfl
  rw [Ne, add_right_inj, ← BitVec.toNat_inj, BitVec.toNat_ofNat, BitVec.toNat_ofNat, hsize]
  omega

/-- What a full stream does to a frame. -/
theorem transparent_iff_of_waiting (h : Waiting s.sm.pktPtr s.sm)
    (hheld : ram.Holds s.buffer s.sm.pktPtr 0 (endMarked frame)) (hframe : UdpFrame frame n port)
    (hempty : (cs 0).empty = false)
    (hport : ∀ k, (cs (payload + 2)).ethRegs.udpModPrt k = port ↔ k = j)
    (hcs : ∀ m, Spares s.sm.pktPtr frame (cs m))
    (hroom : ∀ N, ∃ m, N ≤ m ∧ (cs m).full j.castSucc = false) :
    Transparent s cs frame n j ↔ frame.length ≤ maxReservPktBuf ∧
      (frame.length = payload + n ∨ ¬ FullAtEnd cs j frame.length) := by
  have hlen := hframe.length
  have hpos := hframe.pos
  obtain ⟨m, hm, hM, hend, hptr, hoffset, hoffsets, hwritten⟩ :=
    exists_return h hheld hframe hempty hport hcs hroom
  constructor
  · rintro ⟨M, hM', hrange, -, hbehind⟩
    obtain rfl := hM'.unique hM
    rw [hptr] at hbehind
    have hopen : (cs m).full j.castSucc = false := by
      by_contra hfull
      rw [Bool.not_eq_false] at hfull
      simp only [Ends, hfull, if_true] at hend
      rw [← hend.1] at hbehind
      exact ofNat_succ_ne _ hbehind
    simp only [Ends, hopen, Bool.false_eq_true, if_false] at hend
    -- before the return the offset is the length of the frame
    refine ⟨by rw [← hend, ← hoffset]; exact hrange (m + 1) (by omega), ?_⟩
    -- the stream was full at the last word, and there is padding
    by_contra hbad
    rw [not_or, not_not] at hbad
    obtain ⟨hpad, m₀, hfull₀, hlast⟩ := hbad
    have hafter : payload + 3 < m₀ := by
      by_contra hle
      rw [opens_eq_zero (by omega)] at hlast
      omega
    have hbefore : m₀ < m := by
      by_contra hle
      rcases Nat.eq_or_lt_of_le (Nat.le_of_not_lt hle) with rfl | hlt
      · rw [hopen] at hfull₀
        cases hfull₀
      · have hmono : opens cs j (m + 1) ≤ opens cs j m₀ := opens_le hlt
        omega
    refine hM.busy (m₀ + 2) (by omega) (by omega) ?_
    exact idle_of_full h hheld hframe hempty hport hcs hafter.le hfull₀ hlast hpad
      fun i _ hi => hM.busy i (by omega) (by omega)
  · rintro ⟨hrange, hgood⟩
    have hopen : (cs m).full j.castSucc = false := by
      by_contra hfull
      rw [Bool.not_eq_false] at hfull
      simp only [Ends, hfull, if_true, opens_succ_of_full hm hfull] at hend
      rcases hgood with hpad | hnot
      · omega
      · exact hnot ⟨m, hfull, by omega⟩
    simp only [Ends, hopen, Bool.false_eq_true, if_false] at hend
    refine ⟨m + 2, hM, fun i hi => (hoffsets i hi).trans hrange, fun k => ?_, ?_⟩
    · rw [hwritten, List.take_of_length_le (by rw [length_payloadOut hlen]; omega)]
    · rw [hptr, hend]

/-- **Backpressure.** With a stream that has room again and again, a frame
passes as if it had room always if and only if it is no longer than the offset
can count, and it has no padding, or the stream has room when the last word is
shown for the first time. -/
theorem transparent_iff (hreach : Reachable s) (hidle : s.Idle)
    (hheld : ram.Holds s.buffer s.sm.pktPtr 0 (endMarked frame)) (hframe : UdpFrame frame n port)
    (hempty : (cs 0).empty = false)
    (hport : ∀ k, (cs (payload + 2)).ethRegs.udpModPrt k = port ↔ k = j)
    (hcs : ∀ m, Spares s.sm.pktPtr frame (cs m))
    (hroom : ∀ N, ∃ m, N ≤ m ∧ (cs m).full j.castSucc = false) :
    Transparent s cs frame n j ↔ frame.length ≤ maxReservPktBuf ∧
      (frame.length = payload + n ∨ ¬ FullAtEnd cs j frame.length) :=
  transparent_iff_of_waiting (hreach.waiting hidle) hheld hframe hempty hport hcs hroom

/-- Two words of payload, and padding. -/
def sampleUdp (pad : List Word) : List Word := sampleHeader ++ [0xA1, 0xA2] ++ pad

theorem udpFrame_sampleUdp (pad : List Word) : UdpFrame (sampleUdp pad) 2 0x5001 where
  pos := by decide
  length := by
    rw [sampleUdp, List.length_append]
    exact Nat.le_add_right 23 _
  ethType := rfl
  ipCheckSum := by
    have hpart : part ipHdr udpHdr (sampleUdp pad) = part ipHdr udpHdr sampleHeader := rfl
    rw [hpart]
    decide
  verLen := by
    have hword : (sampleUdp pad).getD (ipHdr + ipIdxVerLenTos) 0 = 0x4500 := rfl
    rw [hword]
    rfl
  prot := by
    have hword : (sampleUdp pad).getD (ipHdr + ipIdxTtlProt) 0 = 0x8011 := rfl
    rw [hword]
    rfl
  ipLength := rfl
  dstPort := rfl

/-- Stream 1 is full in some cycles. -/
def sampleFull (full : ℕ → Bool) (m : ℕ) : RxInput :=
  { sampleReadCycle with full := fun k => decide (k = 1) && full m }

/-- A frame without padding, its stream full in every second cycle. -/
theorem transparent_sample :
    Transparent (sampleReadSide (sampleUdp [])) (sampleFull fun m => m % 2 == 0) (sampleUdp []) 2
      1 :=
  (transparent_iff (reachable_sampleReadSide _) rfl (holds_sampleReadSide (by decide))
    (udpFrame_sampleUdp []) rfl (by decide) (fun _ hwe => by cases hwe)
    fun N => ⟨2 * N + 1, by omega, by simp [sampleFull]⟩).2 ⟨by decide, .inl rfl⟩

/-- A frame with one word of padding, its stream full in the cycle behind the
payload. -/
theorem not_transparent_sample :
    ¬ Transparent (sampleReadSide (sampleUdp [0])) (sampleFull fun m => m == 26) (sampleUdp [0]) 2
      1 := by
  have hiff : Transparent (sampleReadSide (sampleUdp [0])) (sampleFull fun m => m == 26)
      (sampleUdp [0]) 2 1 ↔ _ :=
    transparent_iff_of_waiting ((reachable_sampleReadSide _).waiting rfl)
      (holds_sampleReadSide (by decide)) (udpFrame_sampleUdp [0]) rfl (by decide)
      (fun _ hwe => by cases hwe)
      fun N => ⟨N + 27, by omega, by simp [sampleFull]⟩
  refine mt hiff.1 ?_
  rw [not_and, not_or, not_not]
  exact fun _ => ⟨by decide, 26, by decide, by decide⟩

end Ipmux

end WrCalibration
