import Mathlib.Data.List.Infix
import WrCalibration.Common.Clocked

/-!
# A FIFO between two clocks

One side writes and one side reads, each at the edges of its own clock. What
a FIFO does is told by the words that were written to it since its reset and
by the number of those that were taken out again; of each of the two the other
side sees a part, since they have to cross over. How long that takes is left
open, and so is how late the almost-full flag is. What the read side has not
taken is `held`, and no edge loses or doubles a word of it
(`popped_append_held`). A FIFO whose counts cross over through registers is
one (`synced`).
-/

namespace WrCalibration

/-- An edge of one of the clocks, with the inputs of its side. -/
inductive FifoEdge (α : Type) where
  | write (we : Bool) (d : α)
  | read (rd : Bool)

/-- It is one of the write clock, -/
def FifoEdge.isWrite {α : Type} : FifoEdge α → Bool
  | write _ _ => true
  | read _ => false

/-- or one of the read clock. -/
def FifoEdge.isRead {α : Type} : FifoEdge α → Bool
  | write _ _ => false
  | read _ => true

/-- **A FIFO between two clocks**, with an output register, an empty flag for
the side that reads and two full flags for the side that writes. A read of a
FIFO that is empty to its reader does nothing, and a write to one that is full to
its writer neither. -/
structure AsyncFifo (α : Type) (size threshold : ℕ) where
  State : Type
  reset : State → State
  step : State → FifoEdge α → State
  q : State → α
  empty : State → Bool
  full : State → Bool
  almostFull : State → Bool
  /-- what was written and how much was taken, and what the other side sees -/
  written : State → List α
  taken : State → ℕ
  seen : State → ℕ
  freed : State → ℕ
  /-- how late the almost-full flag is, and how long anything takes to cross -/
  slack : ℕ
  delay : ℕ
  freed_le : ∀ s, freed s ≤ taken s
  taken_le : ∀ s, taken s ≤ seen s
  seen_le : ∀ s, seen s ≤ (written s).length
  written_reset : ∀ s, written (reset s) = []
  empty_eq : ∀ s, empty s = decide (seen s ≤ taken s)
  written_write : ∀ s we d, written (step s (.write we d)) =
    written s ++ if we && !full s then [d] else []
  written_read : ∀ s rd, written (step s (.read rd)) = written s
  taken_write : ∀ s we d, taken (step s (.write we d)) = taken s
  taken_read : ∀ s rd, taken (step s (.read rd)) = taken s + if rd && !empty s then 1 else 0
  q_write : ∀ s we d, q (step s (.write we d)) = q s
  q_read : ∀ s rd, q (step s (.read rd)) =
    if rd && !empty s then (written s).getD (taken s) (q s) else q s
  seen_mono : ∀ s e, seen s ≤ seen (step s e)
  freed_mono : ∀ s e, freed s ≤ freed (step s e)
  full_of_lt : ∀ s, (written s).length < freed s + size → full s = false
  lt_of_almostFull : ∀ s, almostFull s = false →
    (written s).length < freed s + threshold + slack
  seen_run : ∀ s (es : List (FifoEdge α)), delay ≤ es.countP FifoEdge.isRead →
    (written s).length ≤ seen (es.foldl step s)
  freed_run : ∀ s (es : List (FifoEdge α)), delay ≤ es.countP FifoEdge.isWrite →
    taken s ≤ freed (es.foldl step s)
  almostFull_reset : ∀ s (es : List (FifoEdge α)), almostFull (es.foldl step (reset s)) = true →
    threshold ≤ (written (es.foldl step (reset s))).length
  almostFull_run : ∀ s (es : List (FifoEdge α)), delay ≤ es.countP FifoEdge.isWrite →
    almostFull (es.foldl step s) = true →
    freed s + threshold ≤ (written (es.foldl step s)).length

namespace AsyncFifo

variable {α : Type} {size threshold : ℕ} (F : AsyncFifo α size threshold) (s : F.State)
  (we : Bool) (d : α) (rd : Bool)

/-- An edge of the write clock. -/
def write : F.State := F.step s (.write we d)

/-- An edge of the read clock. -/
def read : F.State := F.step s (.read rd)

/-- The words that were written and not taken. -/
def held : List α := (F.written s).drop (F.taken s)

/-- The word that an edge of the read clock takes out, if it finds one. -/
def popped : Option α := if rd && !F.empty s then (F.held s).head? else none

/-- What an edge of the write clock adds. -/
def added : List α := if we && !F.full s then [d] else []

variable {F s we d rd}

@[simp] theorem q_write' : F.q (F.write s we d) = F.q s := F.q_write s we d

theorem held_reset : F.held (F.reset s) = [] := by
  rw [held, F.written_reset, List.drop_nil]

theorem taken_le_length : F.taken s ≤ (F.written s).length := (F.taken_le s).trans (F.seen_le s)

theorem seen_le_foldl (es : List (FifoEdge α)) : F.seen s ≤ F.seen (es.foldl F.step s) := by
  induction es generalizing s with
  | nil => exact Nat.le_refl _
  | cons e es ih => exact (F.seen_mono s e).trans ih

theorem added_of_lt (h : we = true → (F.written s).length < F.freed s + size) :
    F.added s we d = if we then [d] else [] := by
  cases we with
  | false => rfl
  | true => rw [added, F.full_of_lt s (h rfl), Bool.not_false, Bool.and_true]

/-- **A write goes behind the words that are held.** -/
theorem held_write : F.held (F.write s we d) = F.held s ++ F.added s we d := by
  rw [held, write, F.written_write, F.taken_write, List.drop_append_of_le_length taken_le_length,
    held, added]

/-- A write adds one word at most. -/
theorem length_written_write_lt {n : ℕ}
    (h : (F.written s).length < F.freed s + threshold + F.slack + n) :
    (F.written (F.write s we d)).length <
      F.freed (F.write s we d) + threshold + F.slack + (n + 1) := by
  have hfreed := F.freed_mono s (.write we d)
  have hone : (F.added s we d).length ≤ 1 := by
    unfold added
    split
    · exact Nat.le_refl _
    · exact Nat.zero_le _
  have hwritten : F.written (F.write s we d) = F.written s ++ F.added s we d :=
    F.written_write s we d
  rw [hwritten, List.length_append]
  rw [write]
  omega

/-- What the reader finds is held. -/
theorem held_ne_nil (h : F.empty s = false) : F.held s ≠ [] := by
  have hseen := F.seen_le s
  rw [F.empty_eq, decide_eq_false_iff_not] at h
  rw [held, Ne, List.drop_eq_nil_iff]
  omega

/-- **A read takes the oldest word that is held**, if the reader finds one. -/
theorem held_read : F.held (F.read s rd) =
    if rd && !F.empty s then (F.held s).tail else F.held s := by
  rw [held, read, F.written_read, F.taken_read]
  split
  · rw [held, List.tail_drop]
  · rfl

/-- It is at the output after the edge. -/
theorem q_read_of_popped (h : F.popped s rd = some d) : F.q (F.read s rd) = d := by
  unfold popped at h
  split at h
  · rename_i hyes
    rw [read, F.q_read, if_pos hyes, List.getD_eq_getElem?_getD, ← List.head?_drop]
    rw [held] at h
    rw [h]
    rfl
  · cases h

theorem popped_eq_none : F.popped s rd = none ↔ (rd && !F.empty s) = false := by
  unfold popped
  split
  · rename_i hyes
    have hempty : F.empty s = false := by
      simpa using (Bool.and_eq_true_iff.1 hyes).2
    rw [hyes, List.head?_eq_none_iff]
    exact iff_of_false (held_ne_nil hempty) (by decide)
  · rename_i hno
    exact iff_of_true rfl (Bool.eq_false_iff.2 hno)

theorem length_popped :
    (F.popped s rd).toList.length = if rd && !F.empty s then 1 else 0 := by
  cases hyes : rd && !F.empty s with
  | false =>
    rw [popped_eq_none.2 hyes]
    rfl
  | true =>
    cases hnone : F.popped s rd with
    | none => exact absurd (popped_eq_none.1 hnone) (by rw [hyes]; decide)
    | some d => rfl

/-- **Nothing is lost and nothing is doubled**: what an edge takes out and what
is held after it are what was held before. -/
theorem popped_append_held : (F.popped s rd).toList ++ F.held (F.read s rd) = F.held s := by
  rw [held_read, popped]
  split
  · rename_i hyes
    have hempty : F.empty s = false := by
      simpa using (Bool.and_eq_true_iff.1 hyes).2
    obtain ⟨x, xs, hheld⟩ := List.exists_cons_of_ne_nil (held_ne_nil hempty)
    rw [hheld]
    rfl
  · rfl

/-! ## Both sides at once -/

/-- Two edges at once, where both sides have the same clock: the reader does not
find yet what is written. -/
def both (F : AsyncFifo α size threshold) (s : F.State) (we : Bool) (d : α) (rd : Bool) :
    F.State := F.write (F.read s rd) we d

/-! ## The register as the oldest word -/

/-- The words that a reader has still to see, the one in the output register
first while it is valid. -/
def pending (F : AsyncFifo α size threshold) (s : F.State) (valid : Bool) : List α :=
  (if valid then [F.q s] else []) ++ F.held s

theorem pending_write {valid : Bool} :
    F.pending (F.write s we d) valid = F.pending s valid ++ F.added s we d := by
  rw [pending, pending, held_write, q_write', List.append_assoc]

/-- A word that is read comes into the register. -/
theorem pending_read_true : F.pending (F.read s true) (!F.empty s) = F.held s := by
  have hheld : (F.popped s true).toList ++ F.held (F.read s true) = F.held s :=
    popped_append_held
  cases hd : F.popped s true with
  | none =>
    have hno := popped_eq_none.1 hd
    rw [Bool.true_and] at hno
    rw [hd] at hheld
    rw [pending, hno]
    exact hheld
  | some d =>
    have hyes : (!F.empty s) = true := by
      by_contra hno
      rw [popped_eq_none.2 (by rw [Bool.true_and]; exact Bool.eq_false_iff.2 hno)] at hd
      cases hd
    rw [hd] at hheld
    rw [pending, hyes, q_read_of_popped hd]
    exact hheld

theorem read_false : F.held (F.read s false) = F.held s ∧ F.q (F.read s false) = F.q s :=
  ⟨held_read, F.q_read s false⟩

/-- **Nothing is lost and nothing is doubled**, where the next word is
fetched as soon as the register is free. -/
theorem pending_read (valid take : Bool) :
    (if valid && take then [F.q s] else []) ++
        F.pending (F.read s (!valid || take)) (if !valid || take then !F.empty s else valid) =
      F.pending s valid := by
  cases valid with
  | true =>
    cases take with
    | true => exact congrArg (F.q s :: ·) pending_read_true
    | false =>
      obtain ⟨hheld, hq⟩ := read_false (F := F) (s := s)
      simp [pending, hheld, hq]
  | false => cases take <;> exact pending_read_true

/-! ## With registers on the way -/

/-- A count, and what is left of it behind some registers. -/
def behind (count : ℕ) (regs : ℕ → ℕ) : ℕ → ℕ
  | 0 => count
  | i + 1 => regs i

/-- **A value that moves on** with some of the steps, and never goes back. -/
theorem le_foldl_of_moves {σ ι : Type} {step : σ → ι → σ} {p : ι → Bool} {f : ℕ → σ → ℕ} {s : σ}
    (hkeep : ∀ i s e, f i s ≤ f i (step s e))
    (hmove : ∀ i s e, p e = true → f i s ≤ f (i + 1) (step s e)) (es : List ι) (i k : ℕ)
    (hk : k ≤ es.countP p) :
    f i s ≤ f (i + k) (es.foldl step s) := by
  induction es generalizing s i k with
  | nil =>
    obtain rfl : k = 0 := Nat.le_zero.1 hk
    exact Nat.le_refl _
  | cons e es ih =>
    cases hp : p e with
    | false =>
      rw [List.countP_cons_of_neg (by rw [hp]; decide)] at hk
      exact (hkeep i s e).trans (ih i k hk)
    | true =>
      rw [List.countP_cons_of_pos hp] at hk
      cases k with
      | zero => exact (hkeep i s e).trans (ih i 0 (Nat.zero_le _))
      | succ k =>
        have hrest := ih (s := step s e) (i + 1) k (by omega)
        rw [Nat.add_right_comm, Nat.add_assoc] at hrest
        exact (hmove i s e hp).trans hrest

/-- The words that were written, the number of those that were taken, and the
output register. The count of each side goes to the other one through `n`
registers, which are clocked there. -/
structure Synced (α : Type) (n : ℕ) where
  written : List α
  taken : ℕ
  q : α
  shown : ℕ → ℕ
  back : ℕ → ℕ
  shown_le : ∀ i, behind written.length shown (i + 1) ≤ behind written.length shown i
  back_le : ∀ i, behind taken back (i + 1) ≤ behind taken back i
  taken_le : taken ≤ behind written.length shown n

namespace Synced

variable {n : ℕ} (s : Synced α n)

/-- The count of the words written behind some registers, and that of those
taken. -/
def seenAt : ℕ → ℕ := behind s.written.length s.shown

@[inherit_doc seenAt] def freedAt : ℕ → ℕ := behind s.taken s.back

/-- What the reader sees of the words written, and the writer of those taken. -/
def seen : ℕ := s.seenAt n

@[inherit_doc seen] def freed : ℕ := s.freedAt n

theorem behind_le {count : ℕ} {regs : ℕ → ℕ}
    (h : ∀ i, behind count regs (i + 1) ≤ behind count regs i) (i : ℕ) :
    behind count regs i ≤ count := by
  induction i with
  | zero => exact Nat.le_refl _
  | succ i ih => exact (h i).trans ih

theorem behind_mono {count count' : ℕ} {regs : ℕ → ℕ} (h : count ≤ count') (i : ℕ) :
    behind count regs i ≤ behind count' regs i := by
  cases i with
  | zero => exact h
  | succ i => exact Nat.le_refl _

/-! Where each register takes what is in front of it, the counts stay in their
order. -/

theorem behind_shift {count count' : ℕ} {regs : ℕ → ℕ} (hcount : count ≤ count')
    (h : ∀ i, behind count regs (i + 1) ≤ behind count regs i) (i : ℕ) :
    behind count' (behind count regs) (i + 1) ≤ behind count' (behind count regs) i := by
  cases i with
  | zero => exact hcount
  | succ i => exact h i

theorem le_behind_shift {count count' : ℕ} {regs : ℕ → ℕ} (hcount : count ≤ count')
    (h : ∀ i, behind count regs (i + 1) ≤ behind count regs i) (i : ℕ) :
    behind count regs i ≤ behind count' (behind count regs) i := by
  cases i with
  | zero => exact hcount
  | succ i => exact h i

/-- Words that both sides see, and one that was left in the output register. -/
def filled (ws : List α) (q : α) : Synced α n where
  written := ws
  taken := 0
  q := q
  shown _ := ws.length
  back _ := 0
  shown_le i := by cases i <;> exact Nat.le_refl _
  back_le i := by cases i <;> exact Nat.le_refl _
  taken_le := Nat.zero_le _

/-- Nothing can be taken. -/
def empty : Bool := decide (s.seen ≤ s.taken)

theorem seen_le : s.seen ≤ s.written.length := behind_le s.shown_le n

theorem freed_le : s.freed ≤ s.taken := behind_le s.back_le n

theorem taken_le_length : s.taken ≤ s.written.length := Nat.le_trans s.taken_le s.seen_le

/-- An edge of the write clock. -/
def write (size : ℕ) (we : Bool) (d : α) : Synced α n where
  written := s.written ++ if we && !decide (size ≤ s.written.length - s.freed) then [d] else []
  taken := s.taken
  q := s.q
  shown := s.shown
  back := behind s.taken s.back
  shown_le i := by
    cases i with
    | zero => exact (s.shown_le 0).trans (by rw [behind, behind, List.length_append]; omega)
    | succ i => exact s.shown_le (i + 1)
  back_le := behind_shift (Nat.le_refl _) s.back_le
  taken_le := s.taken_le.trans (behind_mono (by rw [List.length_append]; omega) n)

/-- An edge of the read clock. -/
def read (rd : Bool) : Synced α n where
  written := s.written
  taken := s.taken + if rd && !s.empty then 1 else 0
  q := if rd && !s.empty then s.written.getD s.taken s.q else s.q
  shown := behind s.written.length s.shown
  back := s.back
  shown_le := behind_shift (Nat.le_refl _) s.shown_le
  back_le i := by
    cases i with
    | zero => exact (s.back_le 0).trans (Nat.le_add_right _ _)
    | succ i => exact s.back_le (i + 1)
  taken_le := by
    have hseen : s.seen ≤ behind s.written.length (behind s.written.length s.shown) n :=
      le_behind_shift (Nat.le_refl _) s.shown_le n
    have hle : s.taken ≤ s.seen := s.taken_le
    split
    · rename_i h
      rw [empty, Bool.and_eq_true, Bool.not_eq_true', decide_eq_false_iff_not] at h
      omega
    · exact hle.trans hseen

/-- One edge. -/
def step (size : ℕ) (s : Synced α n) : FifoEdge α → Synced α n
  | .write we d => s.write size we d
  | .read rd => s.read rd

variable {s}

theorem seenAt_le_step (i : ℕ) (e : FifoEdge α) : s.seenAt i ≤ (step size s e).seenAt i := by
  cases e with
  | write we d => exact behind_mono (by rw [step, write, List.length_append]; omega) i
  | read rd => exact le_behind_shift (Nat.le_refl _) s.shown_le i

theorem seenAt_le_succ (i : ℕ) {e : FifoEdge α} (he : e.isRead = true) :
    s.seenAt i ≤ (step size s e).seenAt (i + 1) := by
  cases e with
  | write we d => cases he
  | read rd => exact Nat.le_refl _

theorem freedAt_le_step (i : ℕ) (e : FifoEdge α) : s.freedAt i ≤ (step size s e).freedAt i := by
  cases e with
  | write we d => exact le_behind_shift (Nat.le_refl _) s.back_le i
  | read rd => exact behind_mono (Nat.le_add_right _ _) i

theorem freedAt_le_succ (i : ℕ) {e : FifoEdge α} (he : e.isWrite = true) :
    s.freedAt i ≤ (step size s e).freedAt (i + 1) := by
  cases e with
  | write we d => exact Nat.le_refl _
  | read rd => cases he

variable (es : List (FifoEdge α))

/-- What was written is seen after as many edges of the read clock as there are
registers, -/
theorem written_le_seen (hes : n ≤ es.countP FifoEdge.isRead) :
    s.written.length ≤ (es.foldl (step size) s).seen := by
  have hrun : s.seenAt 0 ≤ (es.foldl (step size) s).seenAt (0 + n) :=
    le_foldl_of_moves (f := fun i (s : Synced α n) => s.seenAt i)
      (fun i _ e => seenAt_le_step i e) (fun i _ _ he => seenAt_le_succ i he) es 0 n hes
  rwa [Nat.zero_add] at hrun

/-- and what was taken after as many of the other one. -/
theorem taken_le_freed (hes : n ≤ es.countP FifoEdge.isWrite) :
    s.taken ≤ (es.foldl (step size) s).freed := by
  have hrun : s.freedAt 0 ≤ (es.foldl (step size) s).freedAt (0 + n) :=
    le_foldl_of_moves (f := fun i (s : Synced α n) => s.freedAt i)
      (fun i _ e => freedAt_le_step i e) (fun i _ _ he => freedAt_le_succ i he) es 0 n hes
  rwa [Nat.zero_add] at hrun

theorem freed_le_run : s.freed ≤ (es.foldl (step size) s).freed :=
  le_foldl_of_moves (f := fun i (s : Synced α n) => s.freedAt i)
    (fun i _ e => freedAt_le_step i e) (fun i _ _ he => freedAt_le_succ i he) es n 0
    (Nat.zero_le _)

end Synced

/-- **The FIFO with `n` registers** on each way. -/
def synced (α : Type) (size threshold n : ℕ) : AsyncFifo α size threshold where
  State := Synced α n
  reset s := Synced.filled [] s.q
  step := Synced.step size
  q s := s.q
  empty := Synced.empty
  full s := decide (size ≤ s.written.length - s.freed)
  almostFull s := decide (threshold ≤ s.written.length - s.freed)
  written s := s.written
  taken s := s.taken
  seen := Synced.seen
  freed := Synced.freed
  slack := 0
  delay := n
  freed_le := Synced.freed_le
  taken_le := Synced.taken_le
  seen_le := Synced.seen_le
  written_reset _ := rfl
  empty_eq _ := rfl
  written_write _ _ _ := rfl
  written_read _ _ := rfl
  taken_write _ _ _ := rfl
  taken_read _ _ := rfl
  q_write _ _ _ := rfl
  q_read _ _ := rfl
  seen_mono _ := Synced.seenAt_le_step n
  freed_mono _ := Synced.freedAt_le_step n
  full_of_lt s h := by
    have hle := s.taken_le_length
    have hfreed := s.freed_le
    rw [decide_eq_false_iff_not]
    omega
  lt_of_almostFull s h := by
    rw [decide_eq_false_iff_not] at h
    omega
  seen_run _ := Synced.written_le_seen
  freed_run _ := Synced.taken_le_freed
  almostFull_reset _ es h := by
    rw [decide_eq_true_iff] at h
    exact h.trans (Nat.sub_le _ _)
  almostFull_run s es _ h := by
    have hrun : s.freed ≤ (es.foldl (Synced.step size) s).freed := Synced.freed_le_run es
    have hfreed := (es.foldl (Synced.step size) s).freed_le
    have hle := (es.foldl (Synced.step size) s).taken_le_length
    rw [decide_eq_true_iff] at h
    omega

end AsyncFifo

end WrCalibration
