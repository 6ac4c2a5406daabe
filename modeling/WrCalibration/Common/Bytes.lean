import WrCalibration.Common.Python
import Mathlib.Data.List.TakeWhile
import Mathlib.Data.Nat.Digits.Lemmas
import Mathlib.Data.Rat.Defs
import Mathlib.Algebra.Field.Rat

/-!
# Byte strings

A Python 2 string is a sequence of bytes. This file has the operations
the file readers use on one: prefixes, `strip`, `split`, and the
conversions `int` and `float`, with the decimal numerals a writer
prints. `ofDecimal_decimal` and `pyInt_decimal` are the two directions
of a printed number.
-/

namespace WrCalibration

/-- A Python 2 string. -/
abbrev Bytes := List UInt8

namespace Python

/-- The bytes of a literal. -/
def ascii (s : String) : Bytes := s.toList.map fun c => c.toNat.toUInt8

/-- `line[:len(m)] == m` -/
def startsWith (m line : Bytes) : Bool := m.isPrefixOf line

/-- The newline. -/
def newline : UInt8 := 10

/-- A line that begins with another byte than a mark does not begin with
the mark. -/
theorem startsWith_of_head?_ne {b : UInt8} {m line : Bytes} (hm : m.head? = some b)
    (h : line.head? ≠ some b) : startsWith m line = false := by
  cases m with
  | nil => cases hm
  | cons c m =>
    cases line with
    | nil => rfl
    | cons a line =>
      have hca : c ≠ a := fun hca => h (by rw [← hm, hca]; rfl)
      rw [startsWith, List.isPrefixOf_cons_cons, beq_eq_false_iff_ne.2 hca, Bool.false_and]

/-! ## Stripping -/

/-- The bytes `strip()` removes. -/
def isSpace (b : UInt8) : Bool := b == 32 || (9 ≤ b && b ≤ 13)

/-- `strip` of the bytes that satisfy `p`, at both ends. -/
def stripWhere (p : UInt8 → Bool) (s : Bytes) : Bytes :=
  ((s.dropWhile p).reverse.dropWhile p).reverse

/-- `s.strip()` -/
def strip (s : Bytes) : Bytes := stripWhere isSpace s

/-- A string that neither begins nor ends with a removed byte is left as
it is. -/
theorem stripWhere_eq_self {p : UInt8 → Bool} {s : Bytes} (h : ∀ b ∈ s, p b = false) :
    stripWhere p s = s := by
  have hdrop : ∀ t : Bytes, (∀ b ∈ t, p b = false) → t.dropWhile p = t := by
    intro t ht
    cases t with
    | nil => rfl
    | cons b t => rw [List.dropWhile_cons_of_neg (by simp [ht b (by simp)])]
  rw [stripWhere, hdrop s h, hdrop s.reverse (by simpa using h), List.reverse_reverse]

/-- Removed bytes in front do not matter. -/
theorem stripWhere_cons {p : UInt8 → Bool} {b : UInt8} {s : Bytes} (h : p b = true) :
    stripWhere p (b :: s) = stripWhere p s := by
  rw [stripWhere, List.dropWhile_cons_of_pos h, stripWhere]

/-- A removed byte at the end does not matter. -/
theorem stripWhere_append_singleton {p : UInt8 → Bool} {b : UInt8} {s : Bytes} (h : p b = true) :
    stripWhere p (s ++ [b]) = stripWhere p s := by
  induction s with
  | nil => simp [stripWhere, h]
  | cons c s ih =>
    by_cases hc : p c = true
    · rw [List.cons_append, stripWhere_cons hc, ih, stripWhere_cons hc]
    · rw [List.cons_append, stripWhere, List.dropWhile_cons_of_neg hc, stripWhere,
        List.dropWhile_cons_of_neg hc, ← List.cons_append, List.reverse_append,
        List.reverse_singleton, List.singleton_append, List.dropWhile_cons_of_pos h]

theorem strip_append_newline (s : Bytes) : strip (s ++ [newline]) = strip s :=
  stripWhere_append_singleton rfl

/-! ## Splitting -/

/-- A byte at the end goes to the last piece. -/
theorem splitOn_append_singleton {c b : UInt8} (h : b ≠ c) (s : Bytes) :
    ∃ pieces last, s.splitOn c = pieces ++ [last] ∧
      (s ++ [b]).splitOn c = pieces ++ [last ++ [b]] := by
  induction s with
  | nil =>
    refine ⟨[], [], rfl, List.splitOn_eq_singleton ?_⟩
    simpa using h.symm
  | cons a s ih =>
    obtain ⟨pieces, last, hs, hsb⟩ := ih
    rw [List.cons_append, List.splitOn_cons_eq_if_modifyHead, List.splitOn_cons_eq_if_modifyHead,
      hs, hsb]
    by_cases hac : (a == c) = true
    · exact ⟨[] :: pieces, last, by rw [if_pos hac]; rfl, by rw [if_pos hac]; rfl⟩
    · rw [if_neg hac, if_neg hac]
      cases pieces with
      | nil => exact ⟨[], a :: last, rfl, rfl⟩
      | cons piece pieces => exact ⟨(a :: piece) :: pieces, last, rfl, rfl⟩

/-- Joined pieces split again, the last one with what follows it. -/
theorem splitOn_intercalate_append_singleton {c b : UInt8} (h : b ≠ c) {pieces : List Bytes}
    {last : Bytes} (hp : ∀ l ∈ pieces ++ [last], c ∉ l) :
    ([c].intercalate (pieces ++ [last]) ++ [b]).splitOn c = pieces ++ [last ++ [b]] := by
  obtain ⟨pieces', last', hs, hsb⟩ :=
    splitOn_append_singleton h ([c].intercalate (pieces ++ [last]))
  rw [List.splitOn_intercalate c hp (by simp)] at hs
  obtain ⟨rfl, hlast⟩ := List.append_inj' hs rfl
  rw [hsb, List.singleton_inj.1 hlast]

/-- The newline at the end of a line is stripped off its pieces. -/
theorem getElem?_splitOn_append_newline {c : UInt8} (h : newline ≠ c) (s : Bytes) (i : ℕ) :
    ((s ++ [newline]).splitOn c)[i]?.map strip = (s.splitOn c)[i]?.map strip := by
  obtain ⟨pieces, last, hs, hsb⟩ := splitOn_append_singleton h s
  rw [hs, hsb]
  rcases Nat.lt_trichotomy i pieces.length with hi | rfl | hi
  · rw [List.getElem?_append_left hi, List.getElem?_append_left hi]
  · simp [strip_append_newline]
  · rw [List.getElem?_eq_none (by simp; omega), List.getElem?_eq_none (by simp; omega)]

/-- A joined list has no byte that neither the pieces nor the separator
have. -/
theorem not_mem_intercalate {b : UInt8} {sep : Bytes} (hsep : b ∉ sep) :
    ∀ {ls : List Bytes}, (∀ l ∈ ls, b ∉ l) → b ∉ sep.intercalate ls
  | [], _ => by simp
  | [l], h => by simpa using h l (by simp)
  | l :: l' :: ls, h => by
    rw [List.intercalate_cons_cons, List.mem_append, List.mem_append, not_or, not_or]
    exact ⟨⟨h l (by simp), hsep⟩, not_mem_intercalate hsep fun l'' h'' => h l'' (by simp [h''])⟩

/-- Lines joined by newlines, with one more at the end. -/
theorem intercalate_append_newline (l : Bytes) (ls : List Bytes) :
    [newline].intercalate (l :: ls) ++ [newline] = (l :: ls).flatMap (· ++ [newline]) := by
  induction ls generalizing l with
  | nil => simp
  | cons l' ls ih =>
    rw [List.intercalate_cons_cons, List.append_assoc, ih]
    rfl

/-! ## Decimal numerals -/

/-- A decimal digit. -/
def isDigit (b : UInt8) : Bool := 48 ≤ b && b ≤ 57

/-- The digit of a number below ten. -/
def digit (d : ℕ) : UInt8 := UInt8.ofNat (48 + d)

/-- The number of a digit. -/
def digitVal (b : UInt8) : ℕ := b.toNat - 48

/-- The number a string of digits denotes. -/
def ofDecimal (s : Bytes) : ℕ := Nat.ofDigits 10 (s.map digitVal).reverse

/-- `str(n)`, and `%d` of a number that is not negative. -/
def decimal (n : ℕ) : Bytes := ((if n = 0 then [0] else Nat.digits 10 n).map digit).reverse

/-- `%0kd` of a number that is not negative. -/
def zeroPadded (k n : ℕ) : Bytes :=
  List.replicate (k - (decimal n).length) (digit 0) ++ decimal n

theorem toNat_digit {d : ℕ} (h : d < 10) : (digit d).toNat = 48 + d := by
  rw [digit, UInt8.toNat_ofNat']
  omega

theorem isDigit_digit {d : ℕ} (h : d < 10) : isDigit (digit d) = true := by
  have := toNat_digit h
  simp only [isDigit, Bool.and_eq_true, decide_eq_true_eq, UInt8.le_iff_toNat_le]
  simp only [UInt8.toNat_ofNat, this]
  omega

theorem digitVal_digit {d : ℕ} (h : d < 10) : digitVal (digit d) = d := by
  rw [digitVal, toNat_digit h]
  omega

/-- The digits a number is printed with, the last one first. -/
theorem digits_lt_ten (n : ℕ) : ∀ d ∈ (if n = 0 then [0] else Nat.digits 10 n), d < 10 := by
  intro d hd
  split at hd
  · have := List.mem_singleton.1 hd
    omega
  · exact Nat.digits_lt_base (by omega) hd

theorem decimal_isDigit (n : ℕ) : ∀ b ∈ decimal n, isDigit b = true := by
  intro b hb
  simp only [decimal, List.mem_reverse, List.mem_map] at hb
  obtain ⟨d, hd, rfl⟩ := hb
  exact isDigit_digit (digits_lt_ten n d hd)

theorem decimal_ne_nil (n : ℕ) : decimal n ≠ [] := by
  simp only [decimal, ne_eq, List.reverse_eq_nil_iff, List.map_eq_nil_iff]
  split
  · simp
  · rename_i h
    exact Nat.digits_ne_nil_iff_ne_zero.2 h

theorem zeroPadded_isDigit (k n : ℕ) : ∀ b ∈ zeroPadded k n, isDigit b = true := by
  intro b hb
  rcases List.mem_append.1 hb with h | h
  · rw [(List.mem_replicate.1 h).2]
    rfl
  · exact decimal_isDigit n b h

/-- **A printed number denotes itself**, with any number of leading
zeros. -/
theorem ofDecimal_zeroPadded (k n : ℕ) : ofDecimal (zeroPadded k n) = n := by
  have hmap : (decimal n).map digitVal =
      (if n = 0 then [0] else Nat.digits 10 n).reverse := by
    rw [decimal, List.map_reverse, List.map_map]
    refine congrArg List.reverse ?_
    conv_rhs => rw [← List.map_id (if n = 0 then [0] else Nat.digits 10 n)]
    exact List.map_congr_left fun d hd => digitVal_digit (digits_lt_ten n d hd)
  rw [ofDecimal, zeroPadded, List.map_append, List.map_replicate, hmap, List.reverse_append,
    List.reverse_reverse, List.reverse_replicate, digitVal_digit (by omega),
    Nat.ofDigits_append_replicate_zero]
  split
  · rename_i h
    simp [h]
  · exact Nat.ofDigits_digits 10 n

theorem ofDecimal_decimal (n : ℕ) : ofDecimal (decimal n) = n := by
  have := ofDecimal_zeroPadded 0 n
  rwa [zeroPadded, Nat.zero_sub, List.replicate_zero, List.nil_append] at this

/-- A digit is none of the bytes a reader looks for. -/
theorem not_mem_of_isDigit {s : Bytes} (h : ∀ b ∈ s, isDigit b = true) {c : UInt8}
    (hc : isDigit c = false) : c ∉ s := fun hm => by
  rw [h c hm] at hc
  exact Bool.noConfusion hc

theorem isSpace_of_isDigit {b : UInt8} (h : isDigit b = true) : isSpace b = false := by
  simp only [isDigit, isSpace, Bool.and_eq_true, decide_eq_true_eq, Bool.or_eq_false_iff,
    beq_eq_false_iff_ne, ne_eq, Bool.and_eq_false_iff, decide_eq_false_iff_not,
    UInt8.le_iff_toNat_le, UInt8.toNat_ofNat, UInt8.ext_iff] at *
  omega

theorem strip_of_isDigit {s : Bytes} (h : ∀ b ∈ s, isDigit b = true) : strip s = s :=
  stripWhere_eq_self fun b hb => isSpace_of_isDigit (h b hb)

/-! ## Conversions -/

/-- A sign in front of a numeral: whether it is a minus, and the rest. -/
def sign (s : Bytes) : Bool × Bytes :=
  match s with
  | [] => (false, [])
  | b :: t => if b = 45 then (true, t) else if b = 43 then (false, t) else (false, b :: t)

/-- `int(s)` -/
def pyInt (s : Bytes) : Py ℤ :=
  let (minus, digits) := sign (strip s)
  if digits = [] ∨ ¬ digits.all isDigit then throw .valueError
  else pure (if minus then -(ofDecimal digits : ℤ) else ofDecimal digits)

/-- The exponent of a numeral: the power of ten it multiplies with. -/
def exponent (s : Bytes) : Py ℚ :=
  match s with
  | [] => pure 1
  | e :: t =>
    if e = 101 ∨ e = 69 then
      let (minus, digits) := sign t
      if digits = [] ∨ ¬ digits.all isDigit then throw .valueError
      else pure (if minus then ((10 : ℚ) ^ ofDecimal digits)⁻¹ else 10 ^ ofDecimal digits)
    else throw .valueError

/-- `float(s)` in exact arithmetic. The spellings of infinity and of not a
number have no exact value and are refused. -/
def pyFloat (s : Bytes) : Py ℚ := do
  let (minus, s) := sign (strip s)
  let whole := s.takeWhile isDigit
  let s := s.dropWhile isDigit
  let (fraction, s) :=
    match s with
    | [] => ([], [])
    | b :: t => if b = 46 then (t.takeWhile isDigit, t.dropWhile isDigit) else ([], b :: t)
  if whole = [] ∧ fraction = [] then throw .valueError
  let mantissa : ℚ := ofDecimal (whole ++ fraction) / 10 ^ fraction.length
  let value := mantissa * (← exponent s)
  pure (if minus then -value else value)

/-- `s.upper()` -/
def upper (s : Bytes) : Bytes := s.map fun b => if 97 ≤ b ∧ b ≤ 122 then b - 32 else b

theorem sign_of_isDigit {s : Bytes} (h : ∀ b ∈ s, isDigit b = true) : sign s = (false, s) := by
  cases s with
  | nil => rfl
  | cons b t =>
    have hb := h b (by simp)
    rw [sign, if_neg, if_neg]
    · rintro rfl
      exact absurd hb (by decide)
    · rintro rfl
      exact absurd hb (by decide)

/-- **`int` of a string of digits** is the number it denotes. -/
theorem pyInt_of_isDigit {s : Bytes} (hne : s ≠ []) (h : ∀ b ∈ s, isDigit b = true) :
    pyInt s = .ok (ofDecimal s : ℤ) := by
  have hall : s.all isDigit = true := List.all_eq_true.2 h
  rw [pyInt, strip_of_isDigit h, sign_of_isDigit h]
  simp only [hne, hall]
  rfl

/-- **`float` of a string of digits** is the number it denotes. -/
theorem pyFloat_of_isDigit {s : Bytes} (hne : s ≠ []) (h : ∀ b ∈ s, isDigit b = true) :
    pyFloat s = .ok (ofDecimal s : ℚ) := by
  have htake : s.takeWhile isDigit = s := List.takeWhile_eq_self_iff.2 h
  have hdrop : s.dropWhile isDigit = [] := List.dropWhile_eq_nil_iff.2 h
  rw [pyFloat, strip_of_isDigit h, sign_of_isDigit h]
  simp [htake, hdrop, hne, exponent, bind, Except.bind, pure, Except.pure]

theorem pyInt_congr {s t : Bytes} (h : strip s = strip t) : pyInt s = pyInt t := by
  rw [pyInt, h, pyInt]

theorem pyFloat_congr {s t : Bytes} (h : strip s = strip t) : pyFloat s = pyFloat t := by
  rw [pyFloat, h, pyFloat]

theorem decimal_of_lt_ten {d : ℕ} (h : d < 10) : decimal d = [digit d] := by
  rw [decimal]
  split
  · rename_i h0
    rw [h0]
    rfl
  · rename_i h0
    rw [Nat.digits_of_lt 10 d h0 h]
    rfl

theorem pyInt_decimal (n : ℕ) : pyInt (decimal n) = .ok (n : ℤ) := by
  rw [pyInt_of_isDigit (decimal_ne_nil n) (decimal_isDigit n), ofDecimal_decimal]

end Python

end WrCalibration
