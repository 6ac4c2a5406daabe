import Mathlib.Algebra.BigOperators.Group.Finset.Basic
import Mathlib.Algebra.BigOperators.Ring.Finset
import Mathlib.Algebra.Order.BigOperators.Group.Finset
import Mathlib.Algebra.Ring.Periodic
import Mathlib.Tactic.Linarith
import Mathlib.Tactic.Ring

/-!
# Sums over one period, and the circular correlation

A sequence of period `n` is a function on `ℤ`, and a circular
correlation is a sum over any one of its periods. That the window the
sum runs over does not matter (`sum_period_add`) is what the symmetry
`circCorr_swap` and the strictness `circCorr_self_lt` rest on.
-/

namespace WrCalibration

namespace Cyclic

open Finset Function

section Sum

variable {M : Type*} [AddCommMonoid M] {h : ℤ → M} {n : ℕ}

/-- Moving the window by one step trades its first term for the one past
its end, and the two are equal. -/
theorem sum_period_add_one (hp : Periodic h n) :
    ∑ i ∈ range n, h (i + 1) = ∑ i ∈ range n, h i := by
  cases n with
  | zero => rfl
  | succ m =>
    have hend : h ((m : ℤ) + 1) = h 0 := by
      have := hp 0
      simpa using this
    calc ∑ i ∈ range (m + 1), h ((i : ℤ) + 1)
        = ∑ i ∈ range m, h ((i : ℤ) + 1) + h 0 := by rw [sum_range_succ, hend]
      _ = ∑ i ∈ range m, h ((i + 1 : ℕ) : ℤ) + h ((0 : ℕ) : ℤ) := by push_cast; rfl
      _ = ∑ i ∈ range (m + 1), h i := (sum_range_succ' (fun i : ℕ => h i) m).symm

/-- **The window does not matter**: a sum over one period is the sum over
that period moved by any offset. -/
theorem sum_period_add (hp : Periodic h n) (c : ℤ) :
    ∑ i ∈ range n, h (i + c) = ∑ i ∈ range n, h i := by
  have hstep : ∀ c : ℤ, ∑ i ∈ range n, h (i + (c + 1)) = ∑ i ∈ range n, h (i + c) := by
    intro c
    have hc : Periodic (fun x => h (x + c)) n := fun x => by
      have := hp (x + c)
      rwa [add_right_comm] at this
    rw [← sum_period_add_one hc]
    exact sum_congr rfl fun i _ => by congr 1; ring
  induction c using Int.induction_on with
  | zero => simp
  | succ c ih => rw [hstep, ih]
  | pred c ih =>
    have := hstep (-(c : ℤ) - 1)
    rw [sub_add_cancel] at this
    rw [← this, ih]

end Sum

section Correlation

variable {R : Type*} [CommSemiring R] {f g : ℤ → R} {n : ℕ}

/-- **The circular correlation** of two sequences at lag `l`, summed over
the window `0 … n - 1`. -/
def circCorr (n : ℕ) (f g : ℤ → R) (l : ℤ) : R := ∑ i ∈ range n, f i * g (i - l)

/-- The correlation has the period of its second argument. -/
theorem circCorr_periodic (hg : Periodic g n) : Periodic (circCorr n f g) n := by
  intro l
  refine sum_congr rfl fun i _ => ?_
  have := hg ((i : ℤ) - (l + n))
  rw [← this]
  congr 2
  ring

/-- Lags that agree modulo the period give the same value. -/
theorem circCorr_congr (hg : Periodic g n) {l l' : ℤ} (h : (n : ℤ) ∣ l - l') :
    circCorr n f g l = circCorr n f g l' := by
  obtain ⟨k, hk⟩ := h
  have := (circCorr_periodic (f := f) hg).zsmul k l'
  rw [← this]
  congr 1
  rw [smul_eq_mul, mul_comm, ← hk]
  ring

/-- **Swapping the two sequences negates the lag.** -/
theorem circCorr_swap (hf : Periodic f n) (hg : Periodic g n) (l : ℤ) :
    circCorr n g f l = circCorr n f g (-l) := by
  have hp : Periodic (fun i => f i * g (i + l)) n := fun i => by
    have h1 := hf i
    have h2 := hg (i + l)
    rw [add_right_comm] at h2
    simp only [h1, h2]
  calc circCorr n g f l
      = ∑ i ∈ range n, (fun i => f i * g (i + l)) ((i : ℤ) + -l) := by
        refine sum_congr rfl fun i _ => ?_
        simp only
        rw [neg_add_cancel_right, mul_comm, sub_eq_add_neg]
    _ = ∑ i ∈ range n, f i * g (i + l) := sum_period_add hp (-l)
    _ = circCorr n f g (-l) := sum_congr rfl fun i _ => by rw [sub_neg_eq_add]

/-- Delaying the second sequence moves the lag axis by the delay. -/
theorem circCorr_delay (d l : ℤ) :
    circCorr n f (fun i => g (i - d)) l = circCorr n f g (l + d) :=
  sum_congr rfl fun i _ => by simp only [sub_sub]

end Correlation

section Strict

variable {R : Type*} {f : ℤ → R} {n : ℕ}

/-- A sequence that some lag moves differs from its delayed copy inside
the window already. -/
theorem exists_mem_window (hf : Periodic f n) (hn : 0 < n) {l i : ℤ} (h : f (i - l) ≠ f i) :
    ∃ j ∈ range n, f ((j : ℤ) - l) ≠ f j := by
  have hpos : (0 : ℤ) < n := by exact_mod_cast hn
  have hlo := Int.emod_nonneg i hpos.ne'
  have hhi := Int.emod_lt_of_pos i hpos
  refine ⟨(i % n).toNat, mem_range.2 (by omega), ?_⟩
  have hmod : ∀ c, f (i % n - c) = f (i - c) := by
    intro c
    have := hf.zsmul (i / n) (i % n - c)
    rw [← this]
    congr 1
    have hdm := Int.emod_add_mul_ediv i n
    rw [smul_eq_mul, mul_comm]
    linarith
  rw [Int.toNat_of_nonneg hlo, hmod]
  have h0 := hmod 0
  rw [sub_zero, sub_zero] at h0
  rwa [h0]

/-- The squared distance to the delayed copy is twice the drop of the
autocorrelation. -/
theorem sum_sq_delay [CommRing R] (hf : Periodic f n) (l : ℤ) :
    ∑ i ∈ range n, (f i - f (i - l)) ^ 2 = 2 * (circCorr n f f 0 - circCorr n f f l) := by
  have hp : Periodic (fun i => f i * f i) n := fun i => by simp only [hf i]
  have hshift : ∑ i ∈ range n, f ((i : ℤ) - l) * f (i - l) = ∑ i ∈ range n, f i * f i := by
    rw [← sum_period_add hp (-l)]
    exact sum_congr rfl fun i _ => by simp only [sub_eq_add_neg]
  calc ∑ i ∈ range n, (f i - f ((i : ℤ) - l)) ^ 2
      = ∑ i ∈ range n, (f i * f i + f ((i : ℤ) - l) * f (i - l) - 2 * (f i * f (i - l))) :=
        sum_congr rfl fun i _ => by ring
    _ = 2 * (circCorr n f f 0 - circCorr n f f l) := by
        rw [sum_sub_distrib, sum_add_distrib, hshift, ← mul_sum]
        simp only [circCorr, sub_zero]
        ring

/-- **The autocorrelation is strictly largest at lag zero** among the lags
that move the sequence at all. -/
theorem circCorr_self_lt [CommRing R] [LinearOrder R] [IsStrictOrderedRing R]
    (hf : Periodic f n) (hn : 0 < n) {l i : ℤ} (h : f (i - l) ≠ f i) :
    circCorr n f f l < circCorr n f f 0 := by
  obtain ⟨j, hj, hne⟩ := exists_mem_window hf hn h
  have hpos : 0 < ∑ i ∈ range n, (f i - f ((i : ℤ) - l)) ^ 2 := by
    refine sum_pos' (fun i _ => sq_nonneg _) ⟨j, hj, ?_⟩
    exact sq_pos_iff.2 (sub_ne_zero.2 (Ne.symm hne))
  rw [sum_sq_delay hf] at hpos
  linarith

end Strict

/-- A sequence that never changes from one index to the next is
constant. -/
theorem eq_of_forall_pred_eq {α : Type*} {f : ℤ → α} (h : ∀ i, f (i - 1) = f i) (i j : ℤ) :
    f i = f j := by
  have key : ∀ i, f i = f 0 := by
    intro i
    induction i using Int.induction_on with
    | zero => rfl
    | succ i ih => rw [← ih, ← h ((i : ℤ) + 1), add_sub_cancel_right]
    | pred i ih => rw [← ih, h]
  rw [key i, key j]

end Cyclic

end WrCalibration
