import Mathlib.Data.Nat.Digits.Defs
import Mathlib.Tactic.Common

/-!
# Words in a buffer of octets

A buffer is what stands at each offset of it. `put` writes a word there in
network order, the most significant octet first, and `get` reads one. A word
is read as it was written (`get_put`), and a write is not seen by a read that
it does not touch (`get_put_of_disjoint`).
-/

namespace WrCalibration

/-- What stands at each offset of a buffer. -/
abbrev Octets := ℕ → BitVec 8

namespace Octets

/-- Writes the octets of a word from an offset on. -/
def put {w : ℕ} (b : Octets) (offset : ℕ) (v : BitVec w) : Octets := fun j =>
  if offset ≤ j ∧ j < offset + w / 8 then
    BitVec.ofNat 8 (v.toNat / 256 ^ (w / 8 - 1 - (j - offset)))
  else b j

/-- The word that stands from an offset on. -/
def get (w : ℕ) (b : Octets) (offset : ℕ) : BitVec w :=
  BitVec.ofNat w (Nat.ofDigits 256 ((List.range (w / 8)).map fun i =>
    (b (offset + (w / 8 - 1 - i))).toNat))

section Put

variable {w w' : ℕ} {b b' : Octets} {offset offset' : ℕ} {v : BitVec w} {v' : BitVec w'}

/-- The digits of a number are worth what is left of it below the next one. -/
theorem ofDigits_range (base n v : ℕ) :
    Nat.ofDigits base ((List.range n).map fun i => v / base ^ i % base) = v % base ^ n := by
  induction n generalizing v with
  | zero => rw [pow_zero, Nat.mod_one]; rfl
  | succ n ih =>
    have hnext : (fun i => v / base ^ i % base) ∘ Nat.succ =
        fun i => v / base / base ^ i % base := by
      funext i
      rw [Function.comp_apply, Nat.succ_eq_add_one, pow_succ', Nat.div_div_eq_div_mul]
    rw [List.range_succ_eq_map, List.map_cons, List.map_map, hnext, Nat.ofDigits_cons, ih,
      pow_zero, Nat.div_one, pow_succ', Nat.mod_mul]

theorem put_of_lt {j : ℕ} (h : j < offset ∨ offset + w / 8 ≤ j) : put b offset v j = b j := by
  rw [put, if_neg (by omega)]

/-- A read sees the octets it covers, and no others. -/
theorem get_congr (h : ∀ j, offset ≤ j → j < offset + w / 8 → b j = b' j) :
    get w b offset = get w b' offset := by
  unfold get
  refine congrArg (fun ds => BitVec.ofNat w (Nat.ofDigits 256 ds)) (List.map_congr_left ?_)
  intro i hi
  have hlt := List.mem_range.1 hi
  rw [h _ (by omega) (by omega)]

/-- **A word is read as it was written.** -/
theorem get_put (hw : 8 ∣ w) : get w (put b offset v) offset = v := by
  have hdigits : ∀ i ∈ List.range (w / 8),
      (put b offset v (offset + (w / 8 - 1 - i))).toNat = v.toNat / 256 ^ i % 256 := by
    intro i hi
    have hlt := List.mem_range.1 hi
    have hindex : w / 8 - 1 - (offset + (w / 8 - 1 - i) - offset) = i := by omega
    rw [put, if_pos (by omega), hindex, BitVec.toNat_ofNat]
  have hwidth : 256 ^ (w / 8) = 2 ^ w := by
    rw [show 256 = 2 ^ 8 from rfl, ← pow_mul, Nat.mul_div_cancel' hw]
  unfold get
  rw [List.map_congr_left hdigits, ofDigits_range, hwidth, Nat.mod_eq_of_lt v.isLt,
    BitVec.ofNat_toNat, BitVec.setWidth_eq]

/-- **A write elsewhere is not seen.** -/
theorem get_put_of_disjoint (h : offset' + w' / 8 ≤ offset ∨ offset + w / 8 ≤ offset') :
    get w' (put b offset v) offset' = get w' b offset' :=
  get_congr fun _ _ _ => put_of_lt (by omega)

/-- Zeros are zero wherever they are read. -/
theorem get_put_zero (h : offset ≤ offset' ∧ offset' + w' / 8 ≤ offset + w / 8) :
    get w' (put b offset (0 : BitVec w)) offset' = 0 := by
  have hzeros : (List.range (w' / 8)).map (fun i =>
      (put b offset (0 : BitVec w) (offset' + (w' / 8 - 1 - i))).toNat) =
      List.replicate (w' / 8) 0 := by
    refine List.eq_replicate_iff.2 ⟨by rw [List.length_map, List.length_range], ?_⟩
    intro d hd
    obtain ⟨i, hi, rfl⟩ := List.mem_map.1 hd
    have hlt := List.mem_range.1 hi
    rw [put, if_pos (by omega), BitVec.ofNat_eq_ofNat, BitVec.toNat_zero, Nat.zero_div]
    rfl
  unfold get
  rw [hzeros, Nat.ofDigits_replicate_zero]
  rfl

end Put

end Octets

end WrCalibration
