import Mathlib.Data.Nat.Init
import Mathlib.Tactic.Common

/-!
# What leads to what

A run without end, looked at through properties of its times: one leads to
another when every time that has the first is followed, then or later, by
one that has the second. Two rules do the work, one behind the other
(`LeadsTo.trans`) and by a rank that gets smaller (`leadsTo_of_rank`).
-/

namespace WrCalibration

/-- **Sooner or later**: after every time of the first kind there is one of
the second. -/
def LeadsTo (p q : ℕ → Prop) : Prop := ∀ m, p m → ∃ k, m ≤ k ∧ q k

section LeadsTo

variable {p q r : ℕ → Prop}

/-- One edge further. -/
theorem leadsTo_of_step (h : ∀ m, p m → q (m + 1)) : LeadsTo p q := fun m hm =>
  ⟨m + 1, Nat.le_succ m, h m hm⟩

theorem LeadsTo.trans (hpq : LeadsTo p q) (hqr : LeadsTo q r) : LeadsTo p r := by
  intro m hm
  obtain ⟨k, hk, hq⟩ := hpq m hm
  obtain ⟨k', hk', hr⟩ := hqr k hq
  exact ⟨k', Nat.le_trans hk hk', hr⟩

/-- **By a rank**: every time of the first kind is followed by one of the
second, or by one of the first with a smaller rank. -/
theorem leadsTo_of_rank (rank : ℕ → ℕ)
    (h : ∀ m, p m → ∃ k, m ≤ k ∧ (q k ∨ p k ∧ rank k < rank m)) : LeadsTo p q := by
  intro m hm
  induction hn : rank m using Nat.strong_induction_on generalizing m with
  | _ n ih =>
    obtain ⟨k, hk, hq | ⟨hp, hlt⟩⟩ := h m hm
    · exact ⟨k, hk, hq⟩
    · obtain ⟨k', hk', hq⟩ := ih (rank k) (hn ▸ hlt) k hp rfl
      exact ⟨k', Nat.le_trans hk hk', hq⟩

/-- **It stays or it goes on**: what is kept until the next thing comes, and
does not last for ever, leads to it. -/
theorem leadsTo_of_unless (hstep : ∀ m, p m → p (m + 1) ∨ q (m + 1))
    (hnot : ∀ m, ¬ ∀ k, m ≤ k → p k) : LeadsTo p q := by
  intro m hm
  by_contra hnever
  push Not at hnever
  refine hnot m fun k hk => ?_
  induction k, hk using Nat.le_induction with
  | base => exact hm
  | succ k hk ih => exact (hstep k ih).resolve_right (hnever (k + 1) (Nat.le_succ_of_le hk))

end LeadsTo

end WrCalibration
