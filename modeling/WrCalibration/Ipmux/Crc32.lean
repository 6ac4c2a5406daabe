import WrCalibration.Common.ShiftRegister
import WrCalibration.Ipmux.Package

/-!
# The frame check sequence

`CRC32` and `NegateReverse` of `EMAC16bit_Package`, and the residue the
frame generator configures. One round of the loop of `CRC32` is one step of
the shift register (`crcStep_eq_feed`), so a word is 16 bits that come in,
lowest first, and two words are as many bits as the register is wide. The
register that is all ones goes to the residue by itself (`residue_eq`), and
there is one pair of words that takes any other there
(`crc32_crc32_eq_residue_iff`): the register, negated and with the bits of
each half in reverse order.
-/

namespace WrCalibration

namespace Ipmux

open ShiftRegister

/-! ## The functions of the package -/

/-- The polynomial x^32+x^26+x^23+x^22+x^16+x^12+x^11+x^10+x^8+x^7+x^5+x^4+x^2+x^1+1. -/
def crcPoly : BitVec 32 := 0x04C11DB7

/-- The initial value. -/
def crcInit : BitVec 32 := 0xFFFFFFFF

/-- The residue that the frame generator configures. -/
def gResidue : BitVec 32 := 0x38FB2284

/-- A round of the loop of `crc32`, for one bit of the word. -/
def crcStep (reg : BitVec 32) (dInK : Bool) : BitVec 32 :=
  let applyPoly := reg.getLsbD 31 ^^ dInK
  -- shift left and add the bit at the right
  let reg : BitVec 32 := reg.extractLsb' 0 31 ++ BitVec.ofBool applyPoly
  if applyPoly then (reg.extractLsb' 1 31 ^^^ crcPoly.extractLsb' 1 31) ++ reg.extractLsb' 0 1
  else reg

/-- `CRC32`: the register after one more word. -/
def crc32 (crcIn : BitVec 32) (dIn : Word) : BitVec 32 :=
  (List.range 16).foldl (fun reg k => crcStep reg (dIn.getLsbD k)) crcIn

/-- `NegateReverse`: bit `k` is not bit `15 - k` (`getLsbD_negateReverse`). -/
def negateReverse (dIn : Word) : Word := ~~~dIn.reverse

/-- `CRC32` over a list of words. -/
def crcOf (ws : List Word) : BitVec 32 := ws.foldl crc32 crcInit

-- the values the comment in `CRC32` has for the bytes 0x21, 0x43, 0x65, 0x87
example : crcOf [0x4321] = 0x931736BB ∧ crcOf [0x4321, 0x8765] = 0x024AFDFB := by decide +kernel

variable {c : BitVec 32} {u v d : Word} {b : Bool} {i : ℕ}

theorem getLsbD_negateReverse (hi : i < 16) :
    (negateReverse d).getLsbD i = !d.getLsbD (15 - i) := by
  rw [negateReverse, BitVec.getLsbD_not, decide_eq_true hi, Bool.true_and, BitVec.getLsbD_reverse,
    BitVec.getMsbD_eq_getLsbD, decide_eq_true hi, Bool.true_and]

/-! ## The shift register -/

/-- A bit at the right of the others. -/
theorem getLsbD_append_bit (x : BitVec 31) (y : BitVec 1) :
    (x ++ y : BitVec 32).getLsbD i = if i < 1 then y.getLsbD i else x.getLsbD (i - 1) :=
  BitVec.getLsbD_append

/-- The bits of the register after a round. -/
theorem getLsbD_crcStep (hi : i < 32) :
    (crcStep c b).getLsbD i =
      if i = 0 then (c.getLsbD 31 ^^ b)
      else (c.getLsbD (i - 1) ^^ ((c.getLsbD 31 ^^ b) && crcPoly.getLsbD i)) := by
  unfold crcStep
  generalize (c.getLsbD 31 ^^ b) = p
  -- the shifted register, the new bit at the right
  have hshift : ∀ j < 32, (c.extractLsb' 0 31 ++ BitVec.ofBool p : BitVec 32).getLsbD j =
      if j = 0 then p else c.getLsbD (j - 1) := by
    intro j hj
    rw [getLsbD_append_bit, BitVec.getLsbD_ofBool, BitVec.getLsbD_extractLsb', Nat.zero_add,
      decide_eq_true (show j - 1 < 31 by omega), Bool.true_and]
    rcases Nat.eq_zero_or_pos j with rfl | hpos
    · rw [if_pos one_pos, if_pos rfl, decide_eq_true rfl, Bool.true_and]
    · rw [if_neg (by omega), if_neg (by omega)]
  cases p with
  | false =>
    simp only [Bool.false_eq_true, if_false, Bool.false_and, Bool.xor_false]
    exact hshift i hi
  | true =>
    simp only [if_true, Bool.true_and]
    rw [getLsbD_append_bit, BitVec.getLsbD_xor, BitVec.getLsbD_extractLsb',
      BitVec.getLsbD_extractLsb', BitVec.getLsbD_extractLsb']
    rcases Nat.eq_zero_or_pos i with rfl | hpos
    · rw [if_pos one_pos, if_pos rfl, hshift _ (by omega)]
      rfl
    · have hadd : 1 + (i - 1) = i := by omega
      rw [if_neg (by omega), if_neg (by omega), hadd, hshift i hi, if_neg (by omega),
        decide_eq_true (show i - 1 < 31 by omega), Bool.true_and, Bool.true_and]

/-- A round is a step of the shift register. -/
theorem crcStep_eq_feed : crcStep c b = feed crcPoly c b := by
  have hlow : crcPoly.getLsbD 0 = true := by decide
  refine BitVec.eq_of_getLsbD_eq fun i hi => ?_
  rw [getLsbD_crcStep hi, feed, BitVec.msb_eq_getLsbD_last, BitVec.getLsbD_xor,
    BitVec.getLsbD_shiftLeft, decide_eq_true hi, Bool.true_and]
  have hpoly : (if c.getLsbD 31 ^^ b then crcPoly else 0#32).getLsbD i =
      ((c.getLsbD 31 ^^ b) && crcPoly.getLsbD i) := by
    split
    case isTrue h => rw [h, Bool.true_and]
    case isFalse h => rw [Bool.eq_false_of_not_eq_true h, Bool.false_and, BitVec.getLsbD_zero]
  rw [hpoly]
  rcases Nat.eq_zero_or_pos i with rfl | hpos
  · -- the bit at the right is the polynomial's, where it is added
    rw [if_pos rfl, hlow, Bool.and_true, decide_eq_true one_pos, Bool.not_true, Bool.false_and,
      Bool.false_xor]
  · rw [if_neg (by omega), decide_eq_false (by omega), Bool.not_false, Bool.true_and]

/-- The bits of a word as they come in. -/
def crcBits (d : Word) : List Bool := (List.range 16).map d.getLsbD

@[simp] theorem length_crcBits : (crcBits d).length = 16 := by
  rw [crcBits, List.length_map, List.length_range]

theorem getD_crcBits (hi : i < 16) : (crcBits d).getD i false = d.getLsbD i := by
  rw [crcBits, List.getD_eq_getElem _ _ (by simpa using hi), List.getElem_map, List.getElem_range]

theorem crc32_eq_feedAll : crc32 c d = feedAll crcPoly c (crcBits d) := by
  unfold crc32 feedAll crcBits
  rw [List.foldl_map]
  congr 1
  funext reg k
  exact crcStep_eq_feed

/-- Two words are 32 bits. -/
theorem crc32_crc32 : crc32 (crc32 c u) v = feedAll crcPoly c (crcBits u ++ crcBits v) := by
  rw [crc32_eq_feedAll, crc32_eq_feedAll, feedAll, feedAll, feedAll, List.foldl_append]

/-! ## The residue -/

/-- All ones go to the residue. -/
theorem residue_eq : ~~~gResidue = (advance crcPoly)^[32] (BitVec.allOnes 32) := by
  decide +kernel

/-- What comes in with the place `i` of the register at the top. -/
theorem getD_crcBits_append (hi : i < 32) :
    (crcBits u ++ crcBits v).getD (31 - i) false =
      if 16 ≤ i then u.getLsbD (31 - i) else v.getLsbD (15 - i) := by
  split
  case isTrue h =>
    rw [List.getD_append _ _ _ _ (by rw [length_crcBits]; omega), getD_crcBits (by omega)]
  case isFalse h =>
    have hsub : 31 - i - 16 = 15 - i := by omega
    rw [List.getD_append_right _ _ _ _ (by rw [length_crcBits]; omega), length_crcBits, hsub,
      getD_crcBits (by omega)]

/-- A word is the negated and reversed half of the register at `k`. -/
theorem eq_negateReverse_iff {k : ℕ} :
    d = negateReverse (c.extractLsb' k 16) ↔
      ∀ i < 16, d.getLsbD (15 - i) = !c.getLsbD (k + i) := by
  constructor
  · intro h i hi
    have hsub : 15 - (15 - i) = i := by omega
    rw [h, getLsbD_negateReverse (by omega), hsub, BitVec.getLsbD_extractLsb', decide_eq_true hi,
      Bool.true_and]
  · intro h
    refine BitVec.eq_of_getLsbD_eq fun i hi => ?_
    have hsub : 15 - (15 - i) = i := by omega
    have hbit := h (15 - i) (by omega)
    rw [hsub] at hbit
    rw [hbit, getLsbD_negateReverse hi, BitVec.getLsbD_extractLsb', decide_eq_true (by omega),
      Bool.true_and]

/-- **From any register** there is one pair of words that leads to the residue. -/
theorem crc32_crc32_eq_residue_iff :
    crc32 (crc32 c u) v = ~~~gResidue ↔
      u = negateReverse (c.extractLsb' 16 16) ∧ v = negateReverse (c.extractLsb' 0 16) := by
  have hlow : crcPoly.getLsbD 0 = true := by decide
  have hlen : (crcBits u ++ crcBits v).length = 32 := by simp
  rw [crc32_crc32, residue_eq, feedAll_eq_iff hlow hlen, eq_negateReverse_iff,
    eq_negateReverse_iff]
  have hones : ∀ i < 32, (c.getLsbD i ^^ (BitVec.allOnes 32).getLsbD i) = !c.getLsbD i := by
    intro i hi
    rw [BitVec.getLsbD_allOnes, decide_eq_true hi, Bool.xor_true]
  constructor
  · intro h
    refine ⟨fun i hi => ?_, fun i hi => ?_⟩
    · -- the upper half of the register is the first word
      have hbit := h (16 + i) (by omega)
      have hsub : 31 - (16 + i) = 15 - i := by omega
      rwa [getD_crcBits_append (by omega), if_pos (by omega), hsub, hones _ (by omega)] at hbit
    · rw [Nat.zero_add]
      have hbit := h i (by omega)
      rwa [getD_crcBits_append (by omega), if_neg (by omega), hones _ (by omega)] at hbit
  · rintro ⟨hu, hv⟩ i hi
    rw [getD_crcBits_append hi, hones i hi]
    split
    case isTrue h =>
      have hbit := hu (i - 16) (by omega)
      have hsub : 15 - (i - 16) = 31 - i := by omega
      have hadd : 16 + (i - 16) = i := by omega
      rwa [hsub, hadd] at hbit
    case isFalse h =>
      rw [hv i (by omega), Nat.zero_add]

/-- **The residue characterises a valid frame**: behind any words, the two that
lead to the complement of the configured residue are the negated and reversed
halves of their `CRC32`. -/
theorem crcOf_residue (ws : List Word) (u v : Word) :
    0xC704DD7B = ~~~gResidue ∧
      (crc32 (crc32 (crcOf ws) u) v = 0xC704DD7B ↔
        u = negateReverse ((crcOf ws).extractLsb' 16 16) ∧
          v = negateReverse ((crcOf ws).extractLsb' 0 16)) := by
  have hres : 0xC704DD7B = ~~~gResidue := by decide
  refine ⟨hres, ?_⟩
  rw [hres]
  exact crc32_crc32_eq_residue_iff

end Ipmux

end WrCalibration
