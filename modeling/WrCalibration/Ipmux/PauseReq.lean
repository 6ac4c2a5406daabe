import WrCalibration.Ipmux.TxPkt2Mac

/-!
# Pause requests

`PauseReqLogic` asks the MAC to pause the link partner when the receive
buffer fills above its high water mark, and to let it go on when it drains
below the low one. An acknowledge comes first in its chain of conditions,
and the edge of a water mark is seen once, so a request whose edge falls on
an acknowledge is lost (`notLost_iff`).
-/

namespace WrCalibration

namespace Ipmux

open Clocked PktBufFlags

/-- The signals and variables of `PauseReqLogic`. -/
structure PauseReqLogic where
  waterMarkLowDel : Bool
  waterMarkHighDel : Bool
  pauseReq : Bool
  pauseVal : Word

/-- The inputs of a cycle: the pointers that `PktBufFlags` compares, and the
acknowledge. -/
structure PauseInput (abits : ℕ) where
  pktRdPtr : BitVec abits
  pktWrPtr : BitVec abits
  pauseAck : Bool := false

namespace PauseInput

variable {abits : ℕ} (i : PauseInput abits)

/-- The water marks of a cycle. -/
def lowThrs : Bool := waterMarkLow i.pktRdPtr i.pktWrPtr

@[inherit_doc lowThrs] def highThrs : Bool := waterMarkHigh i.pktRdPtr i.pktWrPtr

end PauseInput

namespace PauseReqLogic

variable {abits : ℕ} (s : PauseReqLogic) (i : PauseInput abits)

/-- The state after a reset. -/
def reset : PauseReqLogic where
  waterMarkLowDel := true
  waterMarkHighDel := false
  pauseReq := false
  pauseVal := 0

/-- The chain of conditions: what becomes of the request. -/
def request : Bool × Word :=
  if i.pauseAck then (false, 0)
  else if i.lowThrs && !s.waterMarkLowDel then (true, 0)
  else if i.highThrs && !s.waterMarkHighDel then (true, 0xFFFF)
  else (s.pauseReq, s.pauseVal)

/-- **One clock edge** of `PauseReqLogic`. -/
def step : PauseReqLogic where
  waterMarkLowDel := i.lowThrs
  waterMarkHighDel := i.highThrs
  pauseReq := (s.request i).1
  pauseVal := (s.request i).2

/-! ## The edges -/

section Run

variable (c : ℕ → PauseInput abits) {m k : ℕ}

/-- The state after some cycles from a reset. -/
def after (m : ℕ) : PauseReqLogic := run step reset (upTo c m)

theorem after_succ : after c (m + 1) = (after c m).step (c m) := run_upTo_succ

/-- A water mark in the cycle before; the first cycle comes after a reset. -/
def previous (mark : PauseInput abits → Bool) (atReset : Bool) : ℕ → Bool
  | 0 => atReset
  | m + 1 => mark (c m)

/-- **A water mark rises** in a cycle. -/
def lowRises (m : ℕ) : Bool := (c m).lowThrs && !previous c PauseInput.lowThrs true m

@[inherit_doc lowRises]
def highRises (m : ℕ) : Bool := (c m).highThrs && !previous c PauseInput.highThrs false m

/-- The pipeline holds the water marks of the cycle before. -/
theorem after_del : (after c m).waterMarkLowDel = previous c PauseInput.lowThrs true m ∧
    (after c m).waterMarkHighDel = previous c PauseInput.highThrs false m := by
  cases m with
  | zero => exact ⟨rfl, rfl⟩
  | succ m =>
    rw [after_succ]
    exact ⟨rfl, rfl⟩

variable {c}

/-- **What a cycle does to the request**: an acknowledge takes it back, an
edge makes a new one, and otherwise it stays. -/
theorem request_after : (after c m).request (c m) =
    if (c m).pauseAck then (false, 0)
    else if lowRises c m then (true, 0)
    else if highRises c m then (true, 0xFFFF)
    else ((after c m).pauseReq, (after c m).pauseVal) := by
  rw [request, (after_del c).1, (after_del c).2]
  rfl

/-- Only one of them rises. -/
theorem lowRises_of_high (h : highRises c m = true) : lowRises c m = false := by
  rw [highRises, Bool.and_eq_true] at h
  rw [lowRises, PauseInput.lowThrs, waterMarkLow_of_high h.1, Bool.false_and]

/-- An acknowledged edge leaves no request. -/
theorem pauseReq_of_ack (h : (c m).pauseAck = true) : (after c (m + 1)).pauseReq = false := by
  rw [after_succ, step, request_after, if_pos h]

/-- A request stays until it is acknowledged. -/
theorem pauseReq_stays (hmk : m ≤ k) (hreq : (after c m).pauseReq = true)
    (hack : ∀ j, m ≤ j → j < k → (c j).pauseAck = false) : (after c k).pauseReq = true := by
  induction k, hmk using Nat.le_induction with
  | base => exact hreq
  | succ k hmk ih =>
    have hbefore := ih fun j hj hjk => hack j hj (hjk.trans (Nat.lt_succ_self k))
    have hnow : (c k).pauseAck = false := hack k hmk (Nat.lt_succ_self k)
    rw [after_succ, step, request_after, hnow]
    simp only [Bool.false_eq_true, if_false]
    split
    · rfl
    · split
      · rfl
      · exact hbefore

variable (c) in
/-- **No request is lost**: an edge leaves the request for it, and only a
later acknowledge takes it back. -/
structure NotLost : Prop where
  pause : ∀ m, highRises c m = true →
    (after c (m + 1)).pauseReq = true ∧ (after c (m + 1)).pauseVal = 0xFFFF
  resume : ∀ m, lowRises c m = true →
    (after c (m + 1)).pauseReq = true ∧ (after c (m + 1)).pauseVal = 0
  held : ∀ m k, m ≤ k → (after c m).pauseReq = true →
    (∀ j, m ≤ j → j < k → (c j).pauseAck = false) → (after c k).pauseReq = true

/-- **When no request is lost**: no acknowledge falls on an edge. -/
theorem notLost_iff : NotLost c ↔
    ∀ m, (lowRises c m || highRises c m) = true → (c m).pauseAck = false := by
  constructor
  · intro h m hrises
    by_contra hack
    rw [Bool.not_eq_false] at hack
    have hgone := pauseReq_of_ack hack
    rcases Bool.or_eq_true_iff.1 hrises with hlow | hhigh
    · rw [(h.resume m hlow).1] at hgone
      cases hgone
    · rw [(h.pause m hhigh).1] at hgone
      cases hgone
  · intro h
    refine ⟨fun m hhigh => ?_, fun m hlow => ?_, fun m k hmk hreq hack =>
      pauseReq_stays hmk hreq hack⟩
    · have hack : (c m).pauseAck = false := h m (by rw [hhigh, Bool.or_true])
      rw [after_succ, step, request_after, hack, lowRises_of_high hhigh, hhigh]
      exact ⟨rfl, rfl⟩
    · have hack : (c m).pauseAck = false := h m (by rw [hlow, Bool.true_or])
      rw [after_succ, step, request_after, hack, hlow]
      exact ⟨rfl, rfl⟩

/-- Packets fill the receive buffer above the high water mark; the partner is
asked to pause, and the acknowledge comes in the cycle in which the buffer
has drained below the low one. -/
def sampleDrain : ℕ → PauseInput rxPktBufAdrsize
  | 0 => { pktRdPtr := 0, pktWrPtr := 4500 }
  | 1 => { pktRdPtr := 0, pktWrPtr := 9000 }
  | 2 => { pktRdPtr := 4500, pktWrPtr := 9000, pauseAck := true }
  | _ => { pktRdPtr := 4500, pktWrPtr := 9000 }

/-- **The request to go on is lost**: the partner stays paused. -/
theorem not_notLost : ¬ NotLost sampleDrain := by
  intro h
  have hlow : lowRises sampleDrain 2 = true := by decide
  have hreq := (h.resume 2 hlow).1
  rw [pauseReq_of_ack rfl] at hreq
  cases hreq

end Run

end PauseReqLogic

end Ipmux

end WrCalibration
