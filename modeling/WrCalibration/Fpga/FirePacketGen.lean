import WrCalibration.Common.Clocked
import WrCalibration.Ipmux.Package
import Mathlib.Data.Nat.Count

/-!
# The packet generator

On a pulse of `Tx_Fire` the generator of the calibration design writes a
number of packets of some length to a stream of the multiplexer. It counts
words and packets, and goes on when the stream is not full. Its outputs
are registered: a cycle without `Full` shows the next word in the cycle
after it. `Bursting` says what was written by where the counters are.
-/

namespace WrCalibration

namespace Fpga

open Clocked Ipmux

/-- `state_type` of `FirePacketGen`. -/
inductive FireState where
  | idle | packet
  deriving DecidableEq

/-- The signals and variables of `FirePacketGen`. -/
structure FirePacketGen where
  state : FireState
  cnt : ℕ
  frame : ℕ
  udpTx : Dbus
  wrReq : Bool

/-- The inputs of a cycle. -/
structure FireInput where
  full : Bool := false
  txFire : Bool := false

namespace FirePacketGen

variable (numwords : BitVec 14) (numpackets : BitVec 10) (s : FirePacketGen) (i : FireInput)

/-- The state after a reset. -/
def reset : FirePacketGen where
  state := .idle
  cnt := 0
  frame := 0
  udpTx := { d := 0xaa11, eod := false }
  wrReq := false

/-- The word of a count. -/
def wordAt (cnt : ℕ) : Dbus :=
  if cnt = numwords.toNat then { d := 0x0E0D, eod := true }
  else if cnt = 1 then { d := 0x050D, eod := false }
  else { d := BitVec.ofNat 16 cnt, eod := false }

/-- What all three branches that send do: the word of the next count, unless
the stream is full. -/
def send : FirePacketGen :=
  let cnt := if i.full then s.cnt else s.cnt + 1
  { s with state := .packet, cnt, udpTx := wordAt numwords cnt, wrReq := !i.full }

/-- What is done on staying in `Idle`, and on returning to it. -/
def toIdle : FirePacketGen :=
  { s with state := .idle, udpTx := { d := 0xaa11, eod := false }, wrReq := false }

/-- **One clock edge** of `FirePacketGen`. -/
def step : FirePacketGen :=
  match s.state with
  | .idle =>
    if i.txFire then { s with cnt := 0, frame := 1 }.send numwords i else s.toIdle
  | .packet =>
    if !i.full ∧ s.cnt = numwords.toNat ∧ s.frame = numpackets.toNat then s.toIdle
    else if !i.full ∧ s.cnt = numwords.toNat then
      { s with cnt := 0, frame := s.frame + 1 }.send numwords i
    else s.send numwords i

/-- The word written in a cycle. -/
def written : Option Dbus := if s.wrReq then some s.udpTx else none

/-! ## The words of a burst -/

/-- **A packet**: `0x050D`, the numbers from two on, and `0x0E0D` with the end
of data. -/
def packetOf (n : ℕ) : List Dbus :=
  if n = 1 then [{ d := 0x0E0D, eod := true }]
  else { d := 0x050D, eod := false } ::
    ((List.range' 2 (n - 2)).map fun k => { d := BitVec.ofNat 16 k, eod := false }) ++
      [{ d := 0x0E0D, eod := true }]

/-- The packets of a burst. -/
def burst (n p : ℕ) : List Dbus := (List.replicate p (packetOf n)).flatten

variable {numwords numpackets s}

/-- The words of a packet, by their count. -/
theorem packetOf_eq (hpos : 0 < numwords.toNat) :
    packetOf numwords.toNat = (List.range' 1 numwords.toNat).map (wordAt numwords) := by
  rcases Nat.eq_or_lt_of_le hpos with hone | hlt
  · have hone' : numwords.toNat = 1 := hone.symm
    rw [packetOf, if_pos hone', hone']
    simp [wordAt, hone']
  · obtain ⟨n, hn⟩ := Nat.exists_eq_add_of_le hlt
    have hsucc : numwords.toNat = (n + 1) + 1 := by omega
    have hmiddle : (List.range' 2 n).map (wordAt numwords) =
        (List.range' 2 n).map fun k => { d := BitVec.ofNat 16 k, eod := false } := by
      refine List.map_congr_left fun k hk => ?_
      rw [List.mem_range'_1] at hk
      rw [wordAt, if_neg (by omega), if_neg (by omega)]
    have hfirst : wordAt numwords 1 = { d := 0x050D, eod := false } := by
      rw [wordAt, if_neg (by omega), if_pos rfl]
    have hlast : wordAt numwords (n + 2) = { d := 0x0E0D, eod := true } := by
      rw [wordAt, if_pos (by omega)]
    rw [packetOf, if_neg (by omega), hsucc, List.range'_succ, List.map_cons, List.range'_1_concat,
      List.map_append, hmiddle, hfirst, List.map_singleton]
    simp only [Nat.reduceAdd, Nat.add_comm 2 n, hlast]
    rfl

theorem length_packetOf (hpos : 0 < numwords.toNat) :
    (packetOf numwords.toNat).length = numwords.toNat := by
  rw [packetOf_eq hpos, List.length_map, List.length_range']

/-- The next word of a packet. -/
theorem take_packetOf {k : ℕ} (hk : k < numwords.toNat) :
    (packetOf numwords.toNat).take k ++ [wordAt numwords (k + 1)] =
      (packetOf numwords.toNat).take (k + 1) := by
  have hnext : (packetOf numwords.toNat)[k]? = some (wordAt numwords (k + 1)) := by
    rw [packetOf_eq (by omega), List.getElem?_map, List.getElem?_range' (by omega)]
    simp [Nat.add_comm]
  rw [List.take_add_one, hnext]
  rfl

theorem burst_succ (n p : ℕ) : burst n (p + 1) = burst n p ++ packetOf n := by
  rw [burst, List.replicate_succ', List.flatten_append, List.flatten_singleton, burst]

theorem length_burst (hpos : 0 < numwords.toNat) (p : ℕ) :
    (burst numwords.toNat p).length = p * numwords.toNat := by
  induction p with
  | zero => rw [Nat.zero_mul]; rfl
  | succ p ih => rw [burst_succ, List.length_append, ih, length_packetOf hpos, Nat.succ_mul]

theorem burst_prefix_of_le {n p q : ℕ} (h : p ≤ q) : burst n p <+: burst n q := by
  induction q, h using Nat.le_induction with
  | base => exact List.prefix_refl _
  | succ q _ ih =>
    rw [burst_succ]
    exact ih.trans (List.prefix_append _ _)

/-! ## The course of a burst -/

section Course

variable {ws : List Dbus} {r f : ℕ} {i : FireInput}

/-- **Where a burst stands** after `r` cycles without `Full`: within a packet,
or behind the last one. -/
inductive Bursting (numwords : BitVec 14) (numpackets : BitVec 10) (s : FirePacketGen)
    (ws : List Dbus) (r : ℕ) : Prop
  | busy {f : ℕ} : s.state = .packet → s.frame = f + 1 → f < numpackets.toNat →
    s.cnt ≤ numwords.toNat →
    ws = burst numwords.toNat f ++ (packetOf numwords.toNat).take s.cnt →
    r = f * numwords.toNat + s.cnt → Bursting numwords numpackets s ws r
  | done : s.state = .idle → s.wrReq = false → s.frame ≤ numpackets.toNat →
    s.cnt ≤ numwords.toNat → ws = burst numwords.toNat numpackets.toNat →
    numpackets.toNat * numwords.toNat < r → Bursting numwords numpackets s ws r

/-- A cycle that sends, from a count within a packet. -/
theorem bursting_send (hframe : s.frame = f + 1) (hf : f < numpackets.toNat)
    (hcnt : s.cnt ≤ numwords.toNat) (hnext : i.full = false → s.cnt < numwords.toNat)
    (hws : ws = burst numwords.toNat f ++ (packetOf numwords.toNat).take s.cnt)
    (hr : r = f * numwords.toNat + s.cnt) :
    Bursting numwords numpackets (s.send numwords i)
      (ws ++ (s.send numwords i).written.toList) (r + if i.full = false then 1 else 0) := by
  cases hfull : i.full with
  | true =>
    refine .busy rfl hframe hf (by simpa [send, hfull] using hcnt) ?_ ?_
    · simp [send, written, hfull, hws]
    · simp [send, hfull, hr]
  | false =>
    have hlt := hnext hfull
    refine .busy rfl hframe hf (by simpa [send, hfull] using Nat.succ_le_of_lt hlt) ?_ ?_
    · simp [send, written, hfull, hws, ← take_packetOf hlt]
    · simp [send, hfull, hr, Nat.add_assoc]

/-- **One edge of a burst.** -/
theorem Bursting.step (h : Bursting numwords numpackets s ws r) (hn : 0 < numwords.toNat)
    (hfire : i.txFire = false) :
    Bursting numwords numpackets (s.step numwords numpackets i)
      (ws ++ (s.step numwords numpackets i).written.toList)
      (r + if i.full = false then 1 else 0) := by
  cases h with
  | done hs hreq hframe hcnt hws hr =>
    have hstep : s.step numwords numpackets i = s.toIdle := by
      rw [FirePacketGen.step, hs]
      simp [hfire]
    rw [hstep]
    exact .done rfl rfl hframe hcnt (by rw [hws]; exact List.append_nil _) (by omega)
  | @busy f hs hframe hf hcnt hws hr =>
    rw [FirePacketGen.step, hs]
    simp only
    by_cases hlast : i.full = false ∧ s.cnt = numwords.toNat
    · -- the packet is complete
      obtain ⟨hfull, hlast⟩ := hlast
      have hfull' : (!i.full) = true := by rw [hfull]; rfl
      have hwhole : ws = burst numwords.toNat (f + 1) := by
        rw [hws, hlast, burst_succ, List.take_of_length_le (length_packetOf hn).le]
      have hcount : r = (f + 1) * numwords.toNat := by rw [hr, hlast, Nat.succ_mul]
      by_cases hend : s.frame = numpackets.toNat
      · have hp : f + 1 = numpackets.toNat := hframe.symm.trans hend
        rw [if_pos ⟨hfull', hlast, hend⟩, if_pos hfull]
        refine .done rfl rfl hend.le hlast.le ?_ ?_
        · rw [hwhole, hp]
          exact List.append_nil _
        · rw [hcount, hp]
          exact Nat.lt_succ_self _
      · rw [if_neg fun hall => hend hall.2.2, if_pos ⟨hfull', hlast⟩]
        exact bursting_send (s := { s with cnt := 0, frame := s.frame + 1 }) (f := f + 1)
          (by rw [hframe]) (by omega) (Nat.zero_le _) (fun _ => hn)
          (by rw [hwhole, List.take_zero, List.append_nil]) hcount
    · have hgoes : ¬ ((!i.full) = true ∧ s.cnt = numwords.toNat) := by simpa using hlast
      rw [if_neg fun hall => hgoes ⟨hall.1, hall.2.1⟩, if_neg hgoes]
      exact bursting_send hframe hf hcnt
        (fun hfull => Nat.lt_of_le_of_ne hcnt fun heq => hlast ⟨hfull, heq⟩) hws hr

end Course

/-! ## A burst -/

section Burst

variable (numwords numpackets s) (full : ℕ → Bool) {m : ℕ}

/-- The cycles of a burst: `Tx_Fire` is up in the first one only. -/
def fireAt (m : ℕ) : FireInput := { full := full m, txFire := decide (m = 0) }

/-- The state after some of them. -/
def after (m : ℕ) : FirePacketGen := run (step numwords numpackets) s (upTo (fireAt full) m)

/-- The words written in the cycles behind the first one. -/
def writes (m : ℕ) : List Dbus :=
  (List.range m).filterMap fun k => (after numwords numpackets s full (k + 1)).written

/-- The cycles in which the stream is not full. -/
def freeCycles (m : ℕ) : ℕ := Nat.count (fun k => full k = false) m

variable {numwords numpackets s full}

theorem after_succ : after numwords numpackets s full (m + 1) =
    (after numwords numpackets s full m).step numwords numpackets (fireAt full m) :=
  run_upTo_succ

theorem writes_succ : writes numwords numpackets s full (m + 1) =
    writes numwords numpackets s full m ++
      (after numwords numpackets s full (m + 1)).written.toList := by
  rw [writes, List.range_succ, List.filterMap_append, List.filterMap_cons, writes]
  cases (after numwords numpackets s full (m + 1)).written <;> rfl

/-- **Where the burst of a pulse stands**, at any time. -/
theorem bursting_after (hs : s.state = .idle) (hn : 0 < numwords.toNat)
    (hp : 0 < numpackets.toNat) (m : ℕ) :
    Bursting numwords numpackets (after numwords numpackets s full (m + 1))
      (writes numwords numpackets s full (m + 1)) (freeCycles full (m + 1)) := by
  induction m with
  | zero =>
    -- the cycle of the pulse, in which the stream may be full already
    have hfired : after numwords numpackets s full 1 =
        { s with cnt := 0, frame := 1 }.send numwords (fireAt full 0) := by
      rw [after_succ, after, upTo, List.range_zero, List.map_nil, run_nil, step, hs]
      rfl
    have hcount : freeCycles full 1 = 0 + if (fireAt full 0).full = false then 1 else 0 := by
      rw [freeCycles, Nat.count_succ, Nat.count_zero, fireAt]
    rw [writes_succ, hfired, hcount]
    exact bursting_send (f := 0) rfl hp (Nat.zero_le _) (fun _ => hn) rfl (by simp)
  | succ m ih =>
    have hstep : after numwords numpackets s full (m + 1 + 1) =
        (after numwords numpackets s full (m + 1)).step numwords numpackets
          (fireAt full (m + 1)) := after_succ
    rw [writes_succ, hstep, freeCycles, Nat.count_succ]
    exact ih.step (i := fireAt full (m + 1)) hn (by simp [fireAt])

/-- **A pulse makes a burst**, whatever the pattern of `Full`: at any time the
words written are the first ones of the burst, one for each cycle without
`Full`. With one such cycle more than words, the burst is complete and the
generator waits in `Idle`. -/
theorem writes_burst (hs : s.state = .idle) (hn : 0 < numwords.toNat)
    (hp : 0 < numpackets.toNat) (m : ℕ) :
    writes numwords numpackets s full m =
      (burst numwords.toNat numpackets.toNat).take (freeCycles full m) ∧
    (numpackets.toNat * numwords.toNat < freeCycles full m →
      writes numwords numpackets s full m = burst numwords.toNat numpackets.toNat ∧
      (after numwords numpackets s full m).state = .idle ∧
      (after numwords numpackets s full m).wrReq = false) ∧
    (0 < m → (after numwords numpackets s full m).cnt ≤ numwords.toNat ∧
      (after numwords numpackets s full m).frame ≤ numpackets.toNat) := by
  cases m with
  | zero => exact ⟨rfl, fun hlt => absurd hlt (Nat.not_lt_zero _), fun h => absurd h (by decide)⟩
  | succ m =>
    have hlen := length_burst hn numpackets.toNat
    cases (bursting_after hs hn hp m : Bursting numwords numpackets _
        (writes numwords numpackets s full (m + 1)) _) with
    | done hstate hreq hframe hcnt hws hr =>
      refine ⟨?_, fun _ => ⟨hws, hstate, hreq⟩, fun _ => ⟨hcnt, hframe⟩⟩
      rw [hws, List.take_of_length_le (by omega)]
    | @busy f hstate hframe hf hcnt hws hr =>
      have hend : (f + 1) * numwords.toNat ≤ numpackets.toNat * numwords.toNat :=
        Nat.mul_le_mul_right _ hf
      rw [Nat.succ_mul] at hend
      have hbegins : writes numwords numpackets s full (m + 1) <+:
          burst numwords.toNat numpackets.toNat := by
        rw [hws]
        refine List.IsPrefix.trans ?_ (burst_prefix_of_le hf)
        rw [burst_succ, List.prefix_append_right_inj]
        exact List.take_prefix _ _
      have hcount : (writes numwords numpackets s full (m + 1)).length =
          freeCycles full (m + 1) := by
        rw [hws, List.length_append, length_burst hn, List.length_take, length_packetOf hn, hr,
          Nat.min_eq_left hcnt]
      refine ⟨?_, fun hlt => ?_, fun _ => ⟨hcnt, hframe ▸ hf⟩⟩
      · rw [← hcount]
        exact List.prefix_iff_eq_take.1 hbegins
      · omega

/-- Two packets of three words, on a stream that is full in every other
cycle and when the pulse comes. -/
theorem writes_burst_two :
    writes 3 2 reset (fun m => decide (m % 2 = 0)) 14 =
      [⟨0x050D, false⟩, ⟨2, false⟩, ⟨0x0E0D, true⟩, ⟨0x050D, false⟩, ⟨2, false⟩, ⟨0x0E0D, true⟩] ∧
    (after 3 2 reset (fun m => decide (m % 2 = 0)) 14).state = .idle := by
  have hlong : 2 * 3 < freeCycles (fun m => decide (m % 2 = 0)) 14 := by decide
  obtain ⟨hws, hstate, -⟩ :=
    (writes_burst (s := reset) rfl (show 0 < (3 : BitVec 14).toNat by decide)
      (show 0 < (2 : BitVec 10).toNat by decide) 14).2.1 hlong
  exact ⟨hws, hstate⟩

end Burst

end FirePacketGen

end Fpga

end WrCalibration
