import Mathlib.Data.Nat.ModEq
import Mathlib.Tactic.Ring

/-!
# Sums modulo one less than the base

`fold` adds the part of a number above its last digit to that digit. It
keeps the number modulo `b - 1`, so a sum and what the fold of the sum
lacks to `b - 1` fold to `b - 1` together: the checksum of the Internet
protocols.
-/

namespace WrCalibration

namespace OnesComplement

variable {b n : ℕ}

/-- The part of a number above its last digit, added to that digit. -/
def fold (b n : ℕ) : ℕ := n / b + n % b

/-- Folding keeps a number modulo one less than the base. -/
theorem fold_modEq (hb : 1 ≤ b) : fold b n ≡ n [MOD b - 1] := by
  have hone : b ≡ 1 [MOD b - 1] := ((Nat.modEq_iff_dvd' hb).2 dvd_rfl).symm
  have hdigits : n % b + b * (n / b) = n := Nat.mod_add_div n b
  calc fold b n = n % b + 1 * (n / b) := by rw [fold]; ring
    _ ≡ n % b + b * (n / b) [MOD b - 1] := ((hone.symm.mul_right _).add_left _)
    _ = n := hdigits

theorem fold_pos (hn : 0 < n) : 0 < fold b n := by
  rw [fold]
  rcases Nat.eq_zero_or_pos (n % b) with h | h
  · have hdigits := Nat.mod_add_div n b
    rcases Nat.eq_zero_or_pos (n / b) with h' | h'
    · rw [h, h', Nat.mul_zero] at hdigits
      omega
    · exact Nat.add_pos_left h' _
  · exact Nat.add_pos_right _ h

/-- Two digits, not both the largest, fold to less than twice the largest. -/
theorem fold_lt (hb : 0 < b) (hn : n < b * b - 1) : fold b n < 2 * (b - 1) := by
  have hmod : n % b < b := Nat.mod_lt n hb
  have hdigits := Nat.mod_add_div n b
  have hdiv : n / b < b := Nat.div_lt_of_lt_mul (by omega)
  rw [fold]
  by_contra hge
  have htop : n / b = b - 1 ∧ n % b = b - 1 := by omega
  rw [htop.1, htop.2, Nat.mul_sub_one] at hdigits
  have hle : b ≤ b * b := Nat.le_mul_self b
  omega

/-- Two digits folded twice are one digit. -/
theorem fold_fold_lt (hb : 0 < b) (hn : n < b * b) : fold b (fold b n) < b := by
  have hmod : n % b < b := Nat.mod_lt n hb
  have hdiv : n / b < b := Nat.div_lt_of_lt_mul hn
  have hfold : fold b n = n / b + n % b := rfl
  rcases Nat.lt_or_ge (fold b n) b with hlt | hge
  · rw [fold, Nat.div_eq_of_lt hlt, Nat.mod_eq_of_lt hlt]
    omega
  · have hquot : fold b n / b = 1 := Nat.div_eq_of_lt_le (by omega) (by omega)
    have hdigits := Nat.mod_add_div (fold b n) b
    rw [hquot, Nat.mul_one] at hdigits
    rw [fold, hquot]
    omega

/-- **The checksum verifies**: a sum and what its fold lacks to `b - 1`
fold to `b - 1`. -/
theorem fold_add_complement (hb : 0 < b) (hn : 0 < n)
    (hlt : n + (b - 1 - fold b (fold b n)) < b * b - 1) :
    fold b (n + (b - 1 - fold b (fold b n))) = b - 1 := by
  have hsmall : fold b (fold b n) < b := fold_fold_lt hb (by omega)
  have hsum : n + (b - 1 - fold b (fold b n)) ≡ 0 [MOD b - 1] := by
    have hsame : fold b (fold b n) ≡ n [MOD b - 1] := (fold_modEq hb).trans (fold_modEq hb)
    have hself : fold b (fold b n) + (b - 1 - fold b (fold b n)) = b - 1 := by omega
    have hadd := (hsame.symm.add_right (b - 1 - fold b (fold b n)))
    rw [hself] at hadd
    exact hadd.trans ((Nat.modEq_zero_iff_dvd).2 dvd_rfl)
  obtain ⟨k, hk⟩ := (Nat.modEq_zero_iff_dvd).1 ((fold_modEq hb).trans hsum)
  have hpos := fold_pos (b := b) (n := n + (b - 1 - fold b (fold b n))) (by omega)
  have htwo := fold_lt hb hlt
  rw [hk] at hpos htwo ⊢
  have hk0 : 0 < k := Nat.pos_of_mul_pos_left hpos
  have hk2 : k < 2 := by
    by_contra hge
    have := Nat.mul_le_mul_left (b - 1) (Nat.le_of_not_lt hge)
    omega
  have hk1 : k = 1 := by omega
  rw [hk1, Nat.mul_one]

/-! ## Sums with the carry brought around -/

variable {ws : List ℕ}

/-- **The sum in one's complement**: what overflows a digit is added to it
at once. -/
def oneSum (b : ℕ) (ws : List ℕ) : ℕ := ws.foldl (fun acc w => fold b (acc + w)) 0

theorem foldl_modEq (hb : 1 ≤ b) (acc : ℕ) :
    ws.foldl (fun acc w => fold b (acc + w)) acc ≡ acc + ws.sum [MOD b - 1] := by
  induction ws generalizing acc with
  | nil => exact Nat.ModEq.refl _
  | cons w ws ih =>
    rw [List.foldl_cons, List.sum_cons, ← add_assoc]
    exact (ih _).trans ((fold_modEq hb).add_right _)

theorem foldl_lt {acc : ℕ} (hacc : acc < b) (h : ∀ w ∈ ws, w < b) :
    ws.foldl (fun acc w => fold b (acc + w)) acc < b := by
  induction ws generalizing acc with
  | nil => exact hacc
  | cons w ws ih =>
    obtain ⟨hw, hws⟩ := List.forall_mem_cons.1 h
    refine ih ?_ hws
    change fold b (acc + w) < b
    rcases Nat.lt_or_ge (acc + w) b with hlt | hge
    · rwa [fold, Nat.div_eq_of_lt hlt, Nat.mod_eq_of_lt hlt, Nat.zero_add]
    · have hquot : (acc + w) / b = 1 := Nat.div_eq_of_lt_le (by omega) (by omega)
      have hdigits := Nat.mod_add_div (acc + w) b
      rw [hquot, Nat.mul_one] at hdigits
      rw [fold, hquot]
      omega

theorem foldl_pos {acc : ℕ} (h : 0 < acc + ws.sum) :
    0 < ws.foldl (fun acc w => fold b (acc + w)) acc := by
  induction ws generalizing acc with
  | nil => simpa using h
  | cons w ws ih =>
    refine ih ?_
    rw [List.sum_cons] at h
    rcases Nat.eq_zero_or_pos (acc + w) with hzero | hpos
    · omega
    · exact Nat.add_pos_left (fold_pos hpos) _

theorem oneSum_of_sum_eq_zero (h : ws.sum = 0) : oneSum b ws = 0 := by
  induction ws with
  | nil => rfl
  | cons w ws ih =>
    rw [List.sum_cons] at h
    obtain ⟨rfl, hws⟩ : w = 0 ∧ ws.sum = 0 := by omega
    have hzero : fold b (0 + 0) = 0 := by rw [fold, Nat.zero_div, Nat.zero_mod]
    change ws.foldl (fun acc w => fold b (acc + w)) (fold b (0 + 0)) = 0
    rw [hzero]
    exact ih hws

/-- **When a sum verifies**: it is all ones for a positive multiple of one
less than the base, and for no other sum. -/
theorem oneSum_eq_iff (hb : 1 < b) (h : ∀ w ∈ ws, w < b) :
    oneSum b ws = b - 1 ↔ 0 < ws.sum ∧ b - 1 ∣ ws.sum := by
  have hmod : oneSum b ws ≡ 0 + ws.sum [MOD b - 1] := foldl_modEq hb.le 0
  have hlt : oneSum b ws < b := foldl_lt (by omega) h
  rw [Nat.zero_add] at hmod
  constructor
  · intro hones
    refine ⟨?_, (hmod.dvd_iff dvd_rfl).1 (hones ▸ dvd_rfl)⟩
    by_contra hzero
    rw [oneSum_of_sum_eq_zero (by omega)] at hones
    omega
  · rintro ⟨hpos, hdvd⟩
    have hones : 0 < oneSum b ws := foldl_pos (by omega)
    have hle : b - 1 ≤ oneSum b ws := Nat.le_of_dvd hones ((hmod.dvd_iff dvd_rfl).2 hdvd)
    omega

end OnesComplement

end WrCalibration
