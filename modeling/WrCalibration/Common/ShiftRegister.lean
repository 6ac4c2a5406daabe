import Mathlib.Data.BitVec
import Mathlib.Data.List.GetD
import Mathlib.Logic.Function.Iterate

/-!
# Linear shift registers

A register that shifts towards its top bit and adds a polynomial where the
bit that leaves it is set. Bits may come in against the one that leaves.
The register is linear (`advance_xor`), nothing is forgotten if the
polynomial has its lowest bit (`advance_injective`), and to feed a few
bits is to add them at the top and to advance (`feedAll_eq`). So as many
bits as the register is wide may take it from any state to any other, and
there is one way to do it (`feedAll_eq_iff`).
-/

namespace WrCalibration

namespace ShiftRegister

variable {w : ℕ} (poly : BitVec w)

/-- The register, one place on. -/
def advance (r : BitVec w) : BitVec w := (r <<< 1) ^^^ if r.msb then poly else 0#w

/-- The register, one place on and one bit in. -/
def feed (r : BitVec w) (b : Bool) : BitVec w := (r <<< 1) ^^^ if r.msb ^^ b then poly else 0#w

/-- A sequence of bits, the first one first. -/
def feedAll (r : BitVec w) (bs : List Bool) : BitVec w := bs.foldl (feed poly) r

/-- Bits at the top of a register, the first one at the very top. -/
def placed : List Bool → BitVec w
  | [] => 0#w
  | b :: bs => (if b then BitVec.twoPow w (w - 1) else 0#w) ^^^ (placed bs >>> 1)

variable {poly} {r s : BitVec w} {b : Bool} {bs : List Bool} {n i : ℕ}

/-! ## Linearity -/

theorem ite_xor (a b : Bool) (p : BitVec w) :
    (if a ^^ b then p else 0#w) = (if a then p else 0#w) ^^^ if b then p else 0#w := by
  cases a <;> cases b <;> simp

/-- **The register is linear.** -/
theorem advance_xor (r s : BitVec w) :
    advance poly (r ^^^ s) = advance poly r ^^^ advance poly s := by
  rw [advance, advance, advance, BitVec.shiftLeft_xor_distrib, BitVec.msb_xor, ite_xor]
  ac_rfl

/-- A register that goes to zero was zero. -/
theorem eq_zero_of_advance (hpoly : poly.getLsbD 0 = true) (h : advance poly r = 0#w) :
    r = 0#w := by
  -- the lowest bit says whether the polynomial was added
  have hmsb : r.msb = false := by
    have hlow := congrArg (BitVec.getLsbD · 0) h
    cases hr : r.msb with
    | false => rfl
    | true => simp [advance, hr, hpoly] at hlow
  have hshift : r <<< 1 = 0#w := by simpa [advance, hmsb] using h
  refine BitVec.eq_of_getLsbD_eq fun i hi => ?_
  rw [BitVec.getLsbD_zero]
  rcases Nat.eq_or_lt_of_le (Nat.succ_le_of_lt hi) with htop | hlt
  · have hi' : i = w - 1 := by omega
    rw [hi', ← BitVec.msb_eq_getLsbD_last, hmsb]
  · have hbit := congrArg (BitVec.getLsbD · (i + 1)) hshift
    simpa [BitVec.getLsbD_shiftLeft, hlt, ← BitVec.getLsbD_eq_getElem hi] using hbit

/-- **Nothing is forgotten.** -/
theorem advance_injective (hpoly : poly.getLsbD 0 = true) : Function.Injective (advance poly) := by
  intro r s h
  rw [← BitVec.xor_eq_zero_iff]
  refine eq_zero_of_advance hpoly ?_
  rw [advance_xor, h, BitVec.xor_self]

/-! ## Bits that come in -/

/-- A bit at the top. -/
theorem getLsbD_top (hi : i < w) :
    (if b then BitVec.twoPow w (w - 1) else 0#w).getLsbD i = (decide (i = w - 1) && b) := by
  cases b with
  | false => simp
  | true =>
    rw [if_pos rfl, BitVec.getLsbD_twoPow, Bool.and_true, decide_eq_true (by omega), Bool.true_and]
    exact decide_eq_decide.2 eq_comm

theorem getLsbD_placed (hi : i < w) :
    (placed bs : BitVec w).getLsbD i = bs.getD (w - 1 - i) false := by
  induction bs generalizing i with
  | nil => simp [placed]
  | cons b bs ih =>
    rw [placed, BitVec.getLsbD_xor, BitVec.getLsbD_ushiftRight, getLsbD_top hi]
    rcases Nat.eq_or_lt_of_le (Nat.succ_le_of_lt hi) with htop | hlt
    · -- the first bit
      have hi' : i = w - 1 := by omega
      have hout : 1 + i = w := by omega
      rw [hout, BitVec.getLsbD_of_ge _ _ le_rfl, hi', Nat.sub_self, decide_eq_true rfl]
      simp
    · have hpos : w - 1 - i = (w - 1 - (1 + i)) + 1 := by omega
      rw [ih (by omega), hpos, List.getD_cons_succ, decide_eq_false (by omega)]
      simp

/-- A bit that comes in is added to the one that leaves. -/
theorem feed_eq (hw : 0 < w) :
    feed poly r b = advance poly (r ^^^ if b then BitVec.twoPow w (w - 1) else 0#w) := by
  have htop : advance poly (if b then BitVec.twoPow w (w - 1) else 0#w) =
      if b then poly else 0#w := by
    have hmsb : (if b then BitVec.twoPow w (w - 1) else 0#w).msb = b := by
      rw [BitVec.msb_eq_getLsbD_last, getLsbD_top (by omega), decide_eq_true rfl, Bool.true_and]
    have hshift : (if b then BitVec.twoPow w (w - 1) else 0#w) <<< 1 = 0#w := by
      refine BitVec.eq_of_getLsbD_eq fun i hi => ?_
      rw [BitVec.getLsbD_shiftLeft, getLsbD_top (by omega), BitVec.getLsbD_zero]
      simp
      omega
    rw [advance, hmsb, hshift, BitVec.zero_xor]
  rw [advance_xor, htop, advance, feed, ite_xor, BitVec.xor_assoc]

/-- Bits above the lowest place have only been shifted. -/
theorem advance_placed (hlen : bs.length < w) :
    advance poly (placed bs >>> 1 : BitVec w) = placed bs := by
  have hmsb : (placed bs >>> 1 : BitVec w).msb = false := by
    rw [BitVec.msb_eq_getLsbD_last, BitVec.getLsbD_ushiftRight]
    exact BitVec.getLsbD_of_ge _ _ (by omega)
  rw [advance, hmsb]
  refine BitVec.eq_of_getLsbD_eq fun i hi => ?_
  rw [if_neg Bool.false_ne_true, BitVec.xor_zero, BitVec.getLsbD_shiftLeft,
    BitVec.getLsbD_ushiftRight]
  rcases Nat.eq_zero_or_pos i with rfl | hpos
  · -- the lowest place is free
    rw [getLsbD_placed hi, List.getD_eq_default _ _ (by omega)]
    simp
  · rw [decide_eq_true hi, decide_eq_false (by omega), Nat.add_sub_cancel' hpos]
    simp

/-- **To feed some bits** is to add them at the top and to advance. -/
theorem feedAll_eq (hlen : bs.length ≤ w) :
    feedAll poly r bs = (advance poly)^[bs.length] (r ^^^ placed bs) := by
  induction bs generalizing r with
  | nil => simp [feedAll, placed]
  | cons b bs ih =>
    rw [List.length_cons] at hlen
    have hcons : feedAll poly r (b :: bs) = feedAll poly (feed poly r b) bs := rfl
    have hplaced : advance poly (placed bs >>> 1 : BitVec w) = placed bs :=
      advance_placed (by omega)
    rw [hcons, ih (by omega), feed_eq (by omega)]
    conv_lhs => rw [← hplaced]
    rw [← advance_xor, placed, List.length_cons, Function.iterate_succ_apply, BitVec.xor_assoc]

/-- **One way from a state to another**: as many bits as the register is wide
take it to where `s` goes by itself exactly if they are the difference. -/
theorem feedAll_eq_iff (hpoly : poly.getLsbD 0 = true) (hlen : bs.length = w) :
    feedAll poly r bs = (advance poly)^[w] s ↔
      ∀ i < w, bs.getD (w - 1 - i) false = (r.getLsbD i ^^ s.getLsbD i) := by
  have hdiff : r ^^^ placed bs = s ↔ placed bs = r ^^^ s := by
    constructor
    · rintro rfl
      rw [← BitVec.xor_assoc, BitVec.xor_self, BitVec.zero_xor]
    · intro h
      rw [h, ← BitVec.xor_assoc, BitVec.xor_self, BitVec.zero_xor]
  rw [feedAll_eq hlen.le, hlen, ((advance_injective hpoly).iterate w).eq_iff, hdiff]
  constructor
  · intro h i hi
    rw [← getLsbD_placed hi, h, BitVec.getLsbD_xor]
  · intro h
    refine BitVec.eq_of_getLsbD_eq fun i hi => ?_
    rw [getLsbD_placed hi, h i hi, BitVec.getLsbD_xor]

end ShiftRegister

end WrCalibration
