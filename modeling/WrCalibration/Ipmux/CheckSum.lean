import WrCalibration.Common.OnesComplement
import WrCalibration.Ipmux.Package

/-!
# The checksums of the headers

Both sides sum 16-bit words in 32 bits. The transmit side folds the sum
twice and sends the complement; the receive side folds once, without the
carry, and compares with all ones. `lower_rxFold_add` is where the two
meet.
-/

namespace WrCalibration

namespace Ipmux

open OnesComplement

/-- The sum of a list of words. -/
def sum32 (ws : List Word) : BitVec 32 := (ws.map wide).sum

/-- The upper and the lower half of a sum. -/
def upper (c : BitVec 32) : Word := c.extractLsb' 16 16

@[inherit_doc upper] def lower (c : BitVec 32) : Word := c.extractLsb' 0 16

/-- The two assignments that fold a checksum on the transmit side: the
halves are added with their carry, and the carry is added once more. -/
def txFold (c : BitVec 32) : BitVec 32 :=
  let c := c.extractLsb' 17 15 ++ ((upper c).setWidth 17 + (lower c).setWidth 17)
  upper c ++ ((c.extractLsb' 16 1).setWidth 16 + lower c)

/-- The assignment that folds a checksum on the receive side: the carry of
the sum of the halves is lost. -/
def rxFold (c : BitVec 32) : BitVec 32 := upper c ++ ~~~(upper c + lower c)

/-! ## Sums -/

@[simp] theorem sum32_nil : sum32 [] = 0 := rfl

theorem sum32_append (ws ws' : List Word) : sum32 (ws ++ ws') = sum32 ws + sum32 ws' := by
  rw [sum32, List.map_append, List.sum_append, sum32, sum32]

theorem sum32_singleton (w : Word) : sum32 [w] = wide w := by
  rw [sum32, List.map_singleton, List.sum_singleton]

theorem toNat_wide (w : Word) : (wide w).toNat = w.toNat := by
  rw [wide, BitVec.toNat_setWidth, Nat.mod_eq_of_lt (by omega)]

/-- A short sum does not overflow. -/
theorem toNat_sum32 (ws : List Word) (h : ws.length ≤ 65536) :
    (sum32 ws).toNat = (ws.map BitVec.toNat).sum ∧
      (ws.map BitVec.toNat).sum ≤ 65535 * ws.length := by
  induction ws with
  | nil => exact ⟨rfl, Nat.zero_le _⟩
  | cons w ws ih =>
    rw [List.length_cons] at h ⊢
    obtain ⟨hsum, hle⟩ := ih (by omega)
    have hw := w.isLt
    have hcons : sum32 (w :: ws) = wide w + sum32 ws := by
      rw [sum32, List.map_cons, List.sum_cons, sum32]
    rw [hcons, BitVec.toNat_add, toNat_wide, hsum, List.map_cons, List.sum_cons]
    exact ⟨Nat.mod_eq_of_lt (by omega), by omega⟩

/-! ## Folds -/

theorem toNat_upper (c : BitVec 32) : (upper c).toNat = c.toNat / 65536 := by
  rw [upper, BitVec.extractLsb'_toNat, Nat.shiftRight_eq_div_pow]
  have := c.isLt
  omega

theorem toNat_lower (c : BitVec 32) : (lower c).toNat = c.toNat % 65536 := by
  rw [lower, BitVec.extractLsb'_toNat, Nat.shiftRight_zero]

theorem lower_append (x y : Word) : lower (x ++ y) = y := by
  exact BitVec.extractLsb'_append_eq_right

/-- The transmit side folds twice. -/
theorem toNat_lower_txFold (c : BitVec 32) :
    (lower (txFold c)).toNat = fold 65536 (fold 65536 c.toNat) := by
  have hc := c.isLt
  have hcarry : ((upper c).setWidth 17 + (lower c).setWidth 17).toNat = fold 65536 c.toNat := by
    rw [BitVec.toNat_add, BitVec.toNat_setWidth, BitVec.toNat_setWidth, toNat_upper, toNat_lower,
      fold]
    omega
  have hlow : fold 65536 c.toNat ≤ 2 * 65535 := by
    rw [fold]
    omega
  have hbits : ∀ (x : BitVec 15) (g : BitVec 17), ((x ++ g).extractLsb' 16 1).toNat =
      g.toNat / 65536 ∧ (lower (x ++ g)).toNat = g.toNat % 65536 := by
    intro x g
    have hg := g.isLt
    rw [lower, BitVec.extractLsb'_append_eq_of_add_le (by omega),
      BitVec.extractLsb'_append_eq_of_add_le (by omega), BitVec.extractLsb'_toNat,
      BitVec.extractLsb'_toNat, Nat.shiftRight_eq_div_pow]
    exact ⟨by omega, rfl⟩
  rw [txFold, lower_append, BitVec.toNat_add, BitVec.toNat_setWidth, (hbits _ _).1, (hbits _ _).2,
    hcarry]
  have hagain : fold 65536 (fold 65536 c.toNat) =
      fold 65536 c.toNat / 65536 + fold 65536 c.toNat % 65536 := rfl
  omega

/-- **When the word of the transmit side is zero**: the sum is a multiple of
65535, and both folds leave all ones. -/
theorem not_lower_txFold_eq_zero_iff {c : BitVec 32} (hpos : 0 < c.toNat) :
    ~~~lower (txFold c) = 0 ↔ 65535 ∣ c.toNat := by
  have hsmall := fold_fold_lt (b := 65536) (n := c.toNat) (by omega) (by omega)
  have hfoldpos : 0 < fold 65536 (fold 65536 c.toNat) := fold_pos (fold_pos hpos)
  have hmod : fold 65536 (fold 65536 c.toNat) ≡ c.toNat [MOD 65535] :=
    (fold_modEq (by decide)).trans (fold_modEq (by decide))
  have hones : ~~~lower (txFold c) = 0 ↔ fold 65536 (fold 65536 c.toNat) = 65535 := by
    rw [← BitVec.toNat_inj, BitVec.toNat_not, toNat_lower_txFold]
    simp only [BitVec.ofNat_eq_ofNat, BitVec.toNat_ofNat]
    omega
  rw [hones, ← hmod.dvd_iff dvd_rfl]
  omega

/-- The receive side compares one fold with all ones. -/
theorem lower_rxFold_eq_zero_iff (c : BitVec 32) :
    lower (rxFold c) = 0 ↔ fold 65536 c.toNat % 65536 = 65535 := by
  rw [rxFold, lower_append, ← BitVec.toNat_inj, BitVec.toNat_not, BitVec.toNat_add, toNat_upper,
    toNat_lower, fold]
  simp only [BitVec.ofNat_eq_ofNat, BitVec.toNat_ofNat]
  omega

/-- The test of the receive side, as it is meant: the sum is a positive
multiple of 65535. -/
theorem lower_rxFold_eq_zero_iff_dvd {c : BitVec 32} (hpos : 0 < c.toNat)
    (hlt : c.toNat < 2 ^ 32 - 1) : lower (rxFold c) = 0 ↔ 65535 ∣ c.toNat := by
  have hfold := fold_lt (b := 65536) (n := c.toNat) (by decide) hlt
  have hfoldpos := fold_pos (b := 65536) hpos
  have hmod : fold 65536 c.toNat ≡ c.toNat [MOD 65535] := fold_modEq (by decide)
  rw [lower_rxFold_eq_zero_iff, ← hmod.dvd_iff dvd_rfl]
  omega

/-- A sum of zero fails the test, though 65535 divides it. -/
theorem lower_rxFold_ne_zero {c : BitVec 32} (h : c.toNat = 0) : lower (rxFold c) ≠ 0 := by
  rw [ne_eq, lower_rxFold_eq_zero_iff, h, fold]
  omega

/-- **The checksums agree**: a sum and the word the transmit side makes of
it pass the test of the receive side. -/
theorem lower_rxFold_add {c : BitVec 32} (hpos : 0 < c.toNat) (hlt : c.toNat + 65536 < 2 ^ 32) :
    lower (rxFold (c + wide (~~~lower (txFold c)))) = 0 := by
  have hsmall := fold_fold_lt (b := 65536) (n := c.toNat) (by omega) (by omega)
  have hsum : (c + wide (~~~lower (txFold c))).toNat =
      c.toNat + (65536 - 1 - fold 65536 (fold 65536 c.toNat)) := by
    rw [BitVec.toNat_add, toNat_wide, BitVec.toNat_not, toNat_lower_txFold]
    omega
  rw [lower_rxFold_eq_zero_iff, hsum, fold_add_complement (by omega) hpos (by omega)]

/-- **The receive test of a list of words**: without overflow it accepts the
positive multiples of 65535, and so every list that ends in the word the
transmit side makes of the others. -/
theorem rxFold_sum32 (ws : List Word) (hlen : ws.length ≤ 65535) :
    (sum32 ws).toNat = (ws.map BitVec.toNat).sum ∧
      (lower (rxFold (sum32 ws)) = 0 ↔ 0 < (sum32 ws).toNat ∧ 65535 ∣ (sum32 ws).toNat) ∧
      (ws.length ≤ 65534 → 0 < (sum32 ws).toNat →
        lower (rxFold (sum32 (ws ++ [~~~lower (txFold (sum32 ws))]))) = 0) := by
  obtain ⟨hsum, hle⟩ := toNat_sum32 ws (by omega)
  refine ⟨hsum, ?_, ?_⟩
  · rcases Nat.eq_zero_or_pos (sum32 ws).toNat with hzero | hpos
    · refine iff_of_false (lower_rxFold_ne_zero hzero) ?_
      rintro ⟨hpos, -⟩
      omega
    · rw [lower_rxFold_eq_zero_iff_dvd hpos (by omega)]
      exact (and_iff_right hpos).symm
  · intro hshort hpos
    rw [sum32_append, sum32_singleton]
    exact lower_rxFold_add hpos (by omega)

/-- All ones, alone and before its own checksum. -/
theorem rxFold_sum32_allOnes :
    (lower (rxFold (sum32 [0xffff])) = 0 ↔
        0 < (sum32 [0xffff]).toNat ∧ 65535 ∣ (sum32 [0xffff]).toNat) ∧
      lower (rxFold (sum32 ([0xffff] ++ [~~~lower (txFold (sum32 [0xffff]))]))) = 0 := by
  obtain ⟨-, htest, hchecks⟩ := rxFold_sum32 [0xffff] (by decide)
  exact ⟨htest, hchecks (by decide) (by decide)⟩

end Ipmux

end WrCalibration
