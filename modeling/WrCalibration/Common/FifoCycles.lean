import WrCalibration.Common.AsyncFifo

/-!
# The cycles of a FIFO between two clocks

Cycle by cycle of the clock that writes, with the edges of the other clock
that fall into each. Where a writer stops one word behind the almost-full flag
every write finds room (`Heeding.lt_size`), and what was read and what is held is
what was written (`Heeding.got_append_held`). A reader that comes again and again
gets all of it (`Heeding.exists_got`), and one that comes in every cycle soon and
without a flag (`Heeding.got_of_asking`, `Heeding.almostFull_of_asking`).
-/

namespace WrCalibration

open Clocked

/-- A cycle of the clock that writes: its edge, and the edges of the other one
until the next. -/
structure FifoCycle (α : Type) where
  we : Bool
  d : α
  rds : List Bool

namespace FifoCycle

variable {α : Type} (c : FifoCycle α)

/-- Its edges. -/
def edges : List (FifoEdge α) := .write c.we c.d :: c.rds.map .read

/-- The word that it writes. -/
def offered : List α := if c.we then [c.d] else []

theorem countP_isWrite_edges : c.edges.countP FifoEdge.isWrite = 1 := by
  have hnone : (c.rds.map (FifoEdge.read (α := α))).countP FifoEdge.isWrite = 0 := by
    rw [List.countP_eq_zero]
    intro e he
    obtain ⟨rd, -, rfl⟩ := List.mem_map.1 he
    exact Bool.false_ne_true
  rw [edges, List.countP_cons_of_pos rfl, hnone]

theorem countP_isRead_edges : c.edges.countP FifoEdge.isRead = c.rds.length := by
  rw [edges, List.countP_cons_of_neg Bool.false_ne_true, List.countP_map]
  exact List.countP_eq_length.2 fun _ _ => rfl

end FifoCycle

namespace AsyncFifo

variable {α : Type} {size threshold : ℕ} {F : AsyncFifo α size threshold} {s : F.State}

/-! ## Some edges of the clock that reads -/

section Reads

variable {rds : List Bool}

/-- The words that they take out. -/
def poppedBy (F : AsyncFifo α size threshold) (s : F.State) (rds : List Bool) : List α :=
  (trace F.read s rds).filterMap fun x => F.popped x.1 x.2

theorem poppedBy_cons {rd : Bool} :
    F.poppedBy s (rd :: rds) = (F.popped s rd).toList ++ F.poppedBy (F.read s rd) rds :=
  filterMap_trace_cons _

theorem written_reads : F.written (run F.read s rds) = F.written s := by
  induction rds generalizing s with
  | nil => rfl
  | cons rd rds ih => rw [run_cons, ih, read, F.written_read]

theorem poppedBy_append_held :
    F.poppedBy s rds ++ F.held (run F.read s rds) = F.held s := by
  induction rds generalizing s with
  | nil => rfl
  | cons rd rds ih => rw [poppedBy_cons, run_cons, List.append_assoc, ih, popped_append_held]

theorem seen_le_reads : F.seen s ≤ F.seen (run F.read s rds) := by
  induction rds generalizing s with
  | nil => exact Nat.le_refl _
  | cons rd rds ih => exact (F.seen_mono s _).trans ih

theorem taken_le_reads : F.taken s ≤ F.taken (run F.read s rds) := by
  induction rds generalizing s with
  | nil => exact Nat.le_refl _
  | cons rd rds ih =>
    refine Nat.le_trans ?_ ih
    rw [read, F.taken_read]
    exact Nat.le_add_right _ _

theorem freed_le_reads : F.freed s ≤ F.freed (run F.read s rds) := by
  induction rds generalizing s with
  | nil => exact Nat.le_refl _
  | cons rd rds ih => exact (F.freed_mono s _).trans ih

/-- A reader that asks, and to whom a word is shown, takes one. -/
theorem taken_lt_reads (hrd : true ∈ rds) (hseen : F.taken s < F.seen s) :
    F.taken s < F.taken (run F.read s rds) := by
  induction rds generalizing s with
  | nil => cases hrd
  | cons rd rds ih =>
    have htaken := F.taken_read s rd
    have hempty : F.empty s = false := by
      rw [F.empty_eq, decide_eq_false_iff_not]
      omega
    rw [run_cons]
    cases rd with
    | true =>
      rw [hempty, Bool.not_false, Bool.and_true, if_pos rfl] at htaken
      exact Nat.lt_of_lt_of_le (by rw [read, htaken]; omega) taken_le_reads
    | false =>
      rw [Bool.false_and, if_neg Bool.false_ne_true] at htaken
      have hlater := F.seen_mono s (.read false)
      have hrest := ih (s := F.read s false) (by simpa using hrd) (by rw [read]; omega)
      rw [read] at hrest ⊢
      omega

end Reads

/-! ## One cycle -/

/-- The words that are read in a cycle. -/
def poppedIn (F : AsyncFifo α size threshold) (s : F.State) (c : FifoCycle α) : List α :=
  F.poppedBy (F.write s c.we c.d) c.rds

/-- **One cycle**: the edge of the clock that writes, and those of the other. -/
def cycle (F : AsyncFifo α size threshold) (s : F.State) (c : FifoCycle α) : F.State :=
  run F.read (F.write s c.we c.d) c.rds

section Cycle

variable {c : FifoCycle α}

theorem cycle_eq_foldl : F.cycle s c = c.edges.foldl F.step s := by
  rw [FifoCycle.edges, List.foldl_cons, List.foldl_map]
  rfl

theorem seen_le_cycle : F.seen s ≤ F.seen (F.cycle s c) := (F.seen_mono s _).trans seen_le_reads

theorem freed_le_cycle : F.freed s ≤ F.freed (F.cycle s c) :=
  (F.freed_mono s _).trans freed_le_reads

theorem taken_le_cycle : F.taken s ≤ F.taken (F.cycle s c) := by
  have htaken : F.taken (F.write s c.we c.d) = F.taken s := F.taken_write s _ _
  rw [← htaken]
  exact taken_le_reads

theorem taken_lt_cycle (hrd : true ∈ c.rds) (hseen : F.taken s < F.seen s) :
    F.taken s < F.taken (F.cycle s c) := by
  have htaken : F.taken (F.write s c.we c.d) = F.taken s := F.taken_write s _ _
  have hlater : F.seen s ≤ F.seen (F.write s c.we c.d) := F.seen_mono s _
  rw [← htaken]
  exact taken_lt_reads hrd (by omega)

variable (hroom : c.we = true → (F.written s).length < F.freed s + size)

include hroom

theorem written_cycle : F.written (F.cycle s c) = F.written s ++ c.offered := by
  rw [cycle, written_reads, write, F.written_write]
  exact congrArg _ (added_of_lt hroom)

/-- **Nothing is lost and nothing is doubled** in a cycle whose write finds
room. -/
theorem poppedIn_append_held :
    F.poppedIn s c ++ F.held (F.cycle s c) = F.held s ++ c.offered := by
  rw [poppedIn, cycle, poppedBy_append_held, held_write, added_of_lt hroom]
  rfl

end Cycle

/-! ## A run -/

section Run

variable {c : ℕ → FifoCycle α} {m n k : ℕ}

/-- The state after some cycles. -/
def after (F : AsyncFifo α size threshold) (s : F.State) (c : ℕ → FifoCycle α) (m : ℕ) :
    F.State := run F.cycle s (upTo c m)

/-- What was read by then. -/
def got (F : AsyncFifo α size threshold) (s : F.State) (c : ℕ → FifoCycle α) (m : ℕ) : List α :=
  (trace F.cycle s (upTo c m)).flatMap fun x => F.poppedIn x.1 x.2

/-- What was written by then. -/
def offeredBy (c : ℕ → FifoCycle α) (m : ℕ) : List α := (upTo c m).flatMap FifoCycle.offered

theorem after_succ : F.after s c (m + 1) = F.cycle (F.after s c m) (c m) := run_upTo_succ

theorem got_succ : F.got s c (m + 1) = F.got s c m ++ F.poppedIn (F.after s c m) (c m) := by
  rw [got, trace_upTo_succ, List.flatMap_append, List.flatMap_singleton]
  rfl

theorem offeredBy_succ : offeredBy c (m + 1) = offeredBy c m ++ (c m).offered := by
  rw [offeredBy, upTo_succ, List.flatMap_append, List.flatMap_singleton]
  rfl

theorem length_offeredBy_succ :
    (offeredBy c (m + 1)).length = (offeredBy c m).length + if (c m).we then 1 else 0 := by
  rw [offeredBy_succ, List.length_append, FifoCycle.offered]
  split <;> rfl

theorem got_mono (h : m ≤ n) : F.got s c m <+: F.got s c n := by
  obtain ⟨d, rfl⟩ := Nat.exists_eq_add_of_le h
  rw [got, got, upTo_add, trace_append, List.flatMap_append]
  exact List.prefix_append _ _

/-- A cycle adds one word at most. -/
theorem length_offeredBy_add_le (d : ℕ) :
    (offeredBy c (m + d)).length ≤ (offeredBy c m).length + d := by
  induction d with
  | zero => exact Nat.le_refl _
  | succ d ih =>
    have hone : (if (c (m + d)).we then 1 else 0) ≤ 1 := by
      split <;> omega
    rw [← Nat.add_assoc, length_offeredBy_succ]
    omega

theorem seen_le_after (h : m ≤ n) : F.seen (F.after s c m) ≤ F.seen (F.after s c n) := by
  induction n, h using Nat.le_induction with
  | base => exact Nat.le_refl _
  | succ n _ ih =>
    rw [after_succ]
    exact ih.trans seen_le_cycle

theorem freed_le_after (h : m ≤ n) : F.freed (F.after s c m) ≤ F.freed (F.after s c n) := by
  induction n, h using Nat.le_induction with
  | base => exact Nat.le_refl _
  | succ n _ ih =>
    rw [after_succ]
    exact ih.trans freed_le_cycle

theorem taken_le_after (h : m ≤ n) : F.taken (F.after s c m) ≤ F.taken (F.after s c n) := by
  induction n, h using Nat.le_induction with
  | base => exact Nat.le_refl _
  | succ n _ ih =>
    rw [after_succ]
    exact ih.trans taken_le_cycle

/-! ### The edges of a run -/

/-- The edges of some cycles. -/
def edgesFrom (c : ℕ → FifoCycle α) (m d : ℕ) : List (FifoEdge α) :=
  (upTo (fun i => c (m + i)) d).flatMap FifoCycle.edges

theorem edgesFrom_succ {d : ℕ} :
    edgesFrom c m (d + 1) = edgesFrom c m d ++ (c (m + d)).edges := by
  rw [edgesFrom, upTo_succ, List.flatMap_append, List.flatMap_singleton]
  rfl

theorem after_add (d : ℕ) :
    F.after s c (m + d) = (edgesFrom c m d).foldl F.step (F.after s c m) := by
  induction d with
  | zero => rfl
  | succ d ih =>
    rw [← Nat.add_assoc, after_succ, ih, cycle_eq_foldl, edgesFrom_succ, List.foldl_append]

theorem after_eq_foldl : F.after s c m = (edgesFrom c 0 m).foldl F.step s := by
  have h := after_add (F := F) (s := s) (c := c) (m := 0) m
  rwa [Nat.zero_add] at h

theorem countP_isWrite_edgesFrom (d : ℕ) : (edgesFrom c m d).countP FifoEdge.isWrite = d := by
  induction d with
  | zero => rfl
  | succ d ih => rw [edgesFrom_succ, List.countP_append, ih, FifoCycle.countP_isWrite_edges]

theorem countP_isRead_edgesFrom_succ (d : ℕ) : (edgesFrom c m (d + 1)).countP FifoEdge.isRead =
    (edgesFrom c m d).countP FifoEdge.isRead + (c (m + d)).rds.length := by
  rw [edgesFrom_succ, List.countP_append, FifoCycle.countP_isRead_edges]

/-- What is taken is soon seen to be. -/
theorem taken_le_freed (m : ℕ) :
    F.taken (F.after s c m) ≤ F.freed (F.after s c (m + F.delay)) := by
  rw [after_add]
  exact F.freed_run _ _ (countP_isWrite_edgesFrom _).ge

/-! ### A writer that heeds the flag -/

/-- **The writer heeds the almost-full flag**, but for one word: no word is
written in the cycle after one with the flag up. -/
structure Heeding (F : AsyncFifo α size threshold) (s : F.State) (c : ℕ → FifoCycle α) : Prop where
  written : F.written s = []
  first : (c 0).we = false
  next : ∀ m, (c (m + 1)).we = true → F.almostFull (F.after s c m) = false

section Heeding

variable (h : Heeding F s c) (hslack : threshold + F.slack < size)

include h hslack

/-- What is known of the FIFO after some cycles. -/
theorem Heeding.stored (m : ℕ) : F.written (F.after s c m) = offeredBy c m ∧
    (offeredBy c m).length + (if (c m).we then 1 else 0) ≤
      F.freed (F.after s c m) + threshold + F.slack + 1 := by
  induction m with
  | zero =>
    refine ⟨h.written, ?_⟩
    rw [h.first, if_neg Bool.false_ne_true]
    exact Nat.zero_le _
  | succ m ih =>
    obtain ⟨hwritten, hroom⟩ := ih
    have hlength := length_offeredBy_succ (c := c) (m := m)
    have hfreed : F.freed (F.after s c m) ≤ F.freed (F.after s c (m + 1)) :=
      freed_le_after (Nat.le_succ m)
    refine ⟨?_, ?_⟩
    · rw [after_succ, written_cycle, hwritten, offeredBy_succ]
      intro hwe
      rw [hwe, if_pos rfl] at hroom
      rw [hwritten]
      omega
    · cases hwe : (c (m + 1)).we with
      | true =>
        -- the flag was down, and one more word may have come since
        have hflag := F.lt_of_almostFull _ (h.next m hwe)
        have hone : (if (c m).we then 1 else 0) ≤ 1 := by
          split <;> omega
        rw [hwritten] at hflag
        rw [if_pos rfl]
        omega
      | false =>
        rw [if_neg Bool.false_ne_true]
        omega

theorem Heeding.written_after (m : ℕ) : F.written (F.after s c m) = offeredBy c m :=
  (h.stored hslack m).1

/-- **Every write finds room.** -/
theorem Heeding.lt_size (hwe : (c m).we = true) :
    (F.written (F.after s c m)).length < F.freed (F.after s c m) + size := by
  obtain ⟨hwritten, hroom⟩ := h.stored hslack m
  rw [hwe, if_pos rfl] at hroom
  rw [hwritten]
  omega

/-- **No word is lost**: what was written is what was read and what is held. -/
theorem Heeding.got_append_held (m : ℕ) :
    F.got s c m ++ F.held (F.after s c m) = offeredBy c m := by
  induction m with
  | zero =>
    rw [after, upTo, List.range_zero, List.map_nil, run_nil, held, h.written, List.drop_nil]
    rfl
  | succ m ih =>
    rw [got_succ, after_succ, List.append_assoc, poppedIn_append_held (h.lt_size hslack),
      ← List.append_assoc, ih, offeredBy_succ]

theorem Heeding.got_isPrefix (m : ℕ) : F.got s c m <+: offeredBy c m := by
  rw [← h.got_append_held hslack m]
  exact List.prefix_append _ _

theorem Heeding.taken_after (m : ℕ) : F.taken (F.after s c m) = (F.got s c m).length := by
  have hlength := congrArg List.length (h.got_append_held hslack m)
  have htaken := taken_le_length (F := F) (s := F.after s c m)
  rw [List.length_append, held, List.length_drop] at hlength
  rw [h.written_after hslack] at hlength htaken
  omega

/-- **A FIFO is never full**: it holds no more than the words up to the
threshold, those that the flag is late, and the one on its way. -/
theorem Heeding.length_held_le (m : ℕ) :
    (F.held (F.after s c m)).length ≤ threshold + F.slack + 1 := by
  obtain ⟨hwritten, hroom⟩ := h.stored hslack m
  have hfreed := F.freed_le (F.after s c m)
  rw [held, List.length_drop, hwritten]
  omega

/-! ### A reader that comes again and again -/

section Again

variable (hreads : ∀ N, ∃ m, N ≤ m ∧ true ∈ (c m).rds)

include hreads

omit h hslack in
/-- What was written is seen some time. -/
theorem exists_seen (N : ℕ) :
    ∃ m, N ≤ m ∧ (F.written (F.after s c N)).length ≤ F.seen (F.after s c m) := by
  obtain ⟨m, hm, hmany⟩ := exists_bound_le (m := N) (n := F.delay)
    (f := fun m => (edgesFrom c N (m - N)).countP FifoEdge.isRead) fun k hk _ => by
      have hmono : ∀ j, k ≤ j → (edgesFrom c N (k - N)).countP FifoEdge.isRead ≤
          (edgesFrom c N (j - N)).countP FifoEdge.isRead := fun j hj => by
        induction j, hj using Nat.le_induction with
        | base => exact Nat.le_refl _
        | succ j hj ih =>
          rw [show j + 1 - N = j - N + 1 by omega, countP_isRead_edgesFrom_succ]
          exact Nat.le_add_right_of_le ih
      obtain ⟨k', hk', hrd⟩ := hreads k
      have hpos := List.length_pos_of_mem hrd
      refine ⟨k' + 1, by omega, ?_⟩
      have hgrown := hmono k' hk'
      rw [show k' + 1 - N = k' - N + 1 by omega, countP_isRead_edgesFrom_succ,
        show N + (k' - N) = k' by omega]
      omega
  obtain ⟨d, rfl⟩ := Nat.exists_eq_add_of_le hm
  refine ⟨N + d, hm, ?_⟩
  rw [Nat.add_sub_cancel_left] at hmany
  rw [after_add]
  exact F.seen_run _ _ hmany

omit h hslack in
/-- What was written is taken some time. -/
theorem exists_taken (N : ℕ) :
    ∃ m, N ≤ m ∧ (F.written (F.after s c N)).length ≤ F.taken (F.after s c m) := by
  obtain ⟨m, hm, hseen⟩ := exists_seen (F := F) (s := s) hreads N
  obtain ⟨m', hm', htaken⟩ := exists_bound_le (m := m) (f := fun m => F.taken (F.after s c m))
    (n := (F.written (F.after s c N)).length) fun k hk hlt => by
      obtain ⟨k', hk', hrd⟩ := hreads k
      refine ⟨k' + 1, by omega, ?_⟩
      have hmono := taken_le_after (F := F) (s := s) (c := c) hk'
      have hshown := seen_le_after (F := F) (s := s) (c := c) (hk.trans hk')
      rw [after_succ]
      rcases Nat.lt_or_ge (F.taken (F.after s c k')) (F.seen (F.after s c k')) with hless | hge
      · exact Nat.lt_of_le_of_lt hmono (taken_lt_cycle hrd hless)
      · have hstay := taken_le_cycle (F := F) (s := F.after s c k') (c := c k')
        omega
  exact ⟨m', hm.trans hm', htaken⟩

/-- **It lets the flag down.** -/
theorem Heeding.exists_room (hpos : 0 < threshold) (N : ℕ) :
    ∃ m, N ≤ m ∧ F.almostFull (F.after s c m) = false := by
  by_contra hnever
  push Not at hnever
  have hfull : ∀ m, N ≤ m → F.almostFull (F.after s c m) = true := fun m hm =>
    by simpa using hnever m hm
  -- nothing is written any more
  have hstays : ∀ m, N + 1 ≤ m → offeredBy c m = offeredBy c (N + 1) := by
    intro m hm
    induction m, hm using Nat.le_induction with
    | base => rfl
    | succ m hm ih =>
      obtain ⟨m, rfl⟩ : ∃ j, m = j + 1 := ⟨m - 1, by omega⟩
      have hnone : (c (m + 1)).we = false := by
        rw [Bool.eq_false_iff]
        intro hwe
        have hdown := h.next m hwe
        rw [hfull m (by omega)] at hdown
        cases hdown
      rw [offeredBy_succ, FifoCycle.offered, hnone, ← ih]
      exact List.append_nil _
  -- all of it is taken and seen to be, and then the flag is late no more
  obtain ⟨m, hm, htaken⟩ := exists_taken (F := F) (s := s) hreads (N + 1)
  have hfreed := taken_le_freed (F := F) (s := s) (c := c) m
  have hflag := hfull (m + F.delay + F.delay) (by omega)
  rw [after_add] at hflag
  have hmany := F.almostFull_run _ _ (countP_isWrite_edgesFrom _).ge hflag
  rw [← after_add, h.written_after hslack, hstays _ (by omega)] at hmany
  rw [h.written_after hslack] at htaken
  omega

/-- **It gets all of it**, once nothing more is written. -/
theorem Heeding.exists_got {ds : List α} {M : ℕ} (hM : ∀ m, M ≤ m → offeredBy c m = ds) :
    ∃ M', ∀ m, M' ≤ m → F.got s c m = ds := by
  obtain ⟨M', hM', htaken⟩ := exists_taken (F := F) (s := s) hreads M
  rw [h.written_after hslack, hM M le_rfl, h.taken_after hslack] at htaken
  refine ⟨M', fun m hm => ?_⟩
  have hbegins := h.got_isPrefix hslack m
  rw [hM m (hM'.trans hm)] at hbegins
  exact hbegins.eq_of_length_le (htaken.trans (got_mono hm).length_le)

end Again

/-! ### A reader that asks in every cycle -/

section Asking

variable (hasks : ∀ m, true ∈ (c m).rds)

include hasks

omit h hslack in
theorem le_countP_isRead (d : ℕ) : d ≤ (edgesFrom c m d).countP FifoEdge.isRead := by
  induction d with
  | zero => exact Nat.zero_le _
  | succ d ih =>
    have hpos := List.length_pos_of_mem (hasks (m + d))
    rw [countP_isRead_edgesFrom_succ]
    omega

/-- What is written is soon taken. -/
theorem Heeding.le_taken (m : ℕ) :
    (offeredBy c m).length ≤ F.taken (F.after s c (m + F.delay + 1)) := by
  induction m with
  | zero => exact Nat.zero_le _
  | succ m ih =>
    have hone := length_offeredBy_add_le (c := c) (m := m) 1
    have hshown : (offeredBy c (m + 1)).length ≤ F.seen (F.after s c (m + 1 + F.delay)) := by
      rw [← h.written_after hslack (m + 1), after_add (m := m + 1)]
      exact F.seen_run _ _ (le_countP_isRead hasks _)
    rw [show m + F.delay + 1 = m + 1 + F.delay by omega] at ih
    rw [after_succ]
    rcases Nat.lt_or_ge (F.taken (F.after s c (m + 1 + F.delay)))
      (F.seen (F.after s c (m + 1 + F.delay))) with hless | hge
    · have hmore := taken_lt_cycle (hasks (m + 1 + F.delay)) hless
      omega
    · exact hshown.trans (hge.trans taken_le_cycle)

/-- **No flag goes up** after a reset, where the threshold is more than what can
be on its way. -/
theorem Heeding.almostFull_of_asking {s₀ : F.State} (hs : s = F.reset s₀)
    (hdelay : 3 * F.delay + 1 < threshold) (m : ℕ) : F.almostFull (F.after s c m) = false := by
  rw [Bool.eq_false_iff]
  intro hflag
  have hwritten := h.written_after hslack m
  rcases Nat.lt_or_ge m (3 * F.delay + 1) with hlt | hge
  · -- not enough was written since the reset
    have hfew := length_offeredBy_add_le (c := c) (m := 0) m
    rw [after_eq_foldl] at hflag hwritten
    subst hs
    have hmany := F.almostFull_reset _ _ hflag
    rw [hwritten] at hmany
    rw [Nat.zero_add] at hfew
    have hnone : (offeredBy c 0).length = 0 := rfl
    omega
  · obtain ⟨j, rfl⟩ := Nat.exists_eq_add_of_le hge
    have hmany : F.freed (F.after s c (j + F.delay + 1 + F.delay)) + threshold ≤
        (offeredBy c (3 * F.delay + 1 + j)).length := by
      rw [show 3 * F.delay + 1 + j = j + F.delay + 1 + F.delay + F.delay by omega]
        at hflag hwritten ⊢
      rw [after_add] at hflag
      rw [← hwritten, after_add (m := j + F.delay + 1 + F.delay)]
      exact F.almostFull_run _ _ (countP_isWrite_edgesFrom _).ge hflag
    have htaken := h.le_taken hslack hasks j
    have hfreed := taken_le_freed (F := F) (s := s) (c := c) (j + F.delay + 1)
    have hfew := length_offeredBy_add_le (c := c) (m := j) (3 * F.delay + 1)
    rw [Nat.add_comm j] at hfew
    omega

/-- **It gets all of it** some cycles later. -/
theorem Heeding.got_of_asking (hm : m + F.delay + 1 ≤ n) (hn : offeredBy c n = offeredBy c m) :
    F.got s c n = offeredBy c m := by
  have hbegins := h.got_isPrefix hslack n
  rw [hn] at hbegins
  refine hbegins.eq_of_length_le ((h.le_taken hslack hasks m).trans ?_)
  rw [h.taken_after hslack]
  exact (got_mono hm).length_le

end Asking

end Heeding

end Run

end AsyncFifo

end WrCalibration
