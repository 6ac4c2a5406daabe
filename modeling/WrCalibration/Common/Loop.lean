import Mathlib.Order.Basic

/-!
# Loops with a guard

`Ends guard body s k t`: the loop `while guard: body` entered at `s`
stops at `t` after `k` passes. That a loop stops comes from its variant
(`exists_of_variant`), what holds where it stops from its guard
(`not_guard`) and from what every pass keeps (`invariant`, `conserved`).
-/

namespace WrCalibration

namespace Loop

variable {σ : Type*}

/-- **A loop that stops.** -/
inductive Ends (guard : σ → Prop) (body : σ → σ) : σ → ℕ → σ → Prop
  /-- The guard is false and no pass is made. -/
  | done {s : σ} : ¬ guard s → Ends guard body s 0 s
  /-- The guard is true: one pass, and the loop again. -/
  | pass {s t : σ} {k : ℕ} :
      guard s → Ends guard body (body s) k t → Ends guard body s (k + 1) t

variable {guard : σ → Prop} {body : σ → σ} {s t : σ} {k : ℕ}

namespace Ends

/-- A loop stops where its guard is false. -/
theorem not_guard (h : Ends guard body s k t) : ¬ guard t := by
  induction h with
  | done hstop => exact hstop
  | pass _ _ ih => exact ih

/-- **The rule of the invariant**: what every pass keeps holds where the
loop stops. -/
theorem invariant {I : σ → Prop} (h : Ends guard body s k t)
    (hpass : ∀ s, guard s → I s → I (body s)) (hs : I s) : I t := by
  induction h with
  | done _ => exact hs
  | pass hgo _ ih => exact ih (hpass _ hgo hs)

/-- A quantity that no pass changes is the one the loop was entered with. -/
theorem conserved {α : Type*} {f : σ → α} (h : Ends guard body s k t)
    (hpass : ∀ s, f (body s) = f s) : f t = f s := by
  refine h.invariant (I := fun r => f r = f s) ?_ rfl
  intro r _ hr
  rw [hpass, hr]

/-- **The rule of the variant**: a loop whose passes all lower a natural
number stops. -/
theorem exists_of_variant (v : σ → ℕ) (hpass : ∀ s, guard s → v (body s) < v s) (s : σ) :
    ∃ k t, Ends guard body s k t := by
  induction hn : v s using Nat.strongRecOn generalizing s with
  | ind n ih =>
    by_cases hgo : guard s
    · have hlt : v (body s) < n := by
        rw [← hn]
        exact hpass s hgo
      obtain ⟨k, t, h⟩ := ih (v (body s)) hlt (body s) rfl
      exact ⟨k + 1, t, .pass hgo h⟩
    · exact ⟨0, s, .done hgo⟩

end Ends

end Loop

end WrCalibration
