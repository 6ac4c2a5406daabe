import Mathlib.Data.BitVec

/-!
# Records in a ring

Records of some lengths lie one behind the other in a memory whose
addresses wrap around, from a read pointer to a write pointer. Short of a
full ring the distance of the pointers is what the records occupy
(`Linked.toNat_sub`), and an offset from the write pointer that stays
within the free space is no address of a record (`Linked.ne_of_free`).
-/

namespace WrCalibration

namespace RecordRing

/-- A record: where it starts and how long it is. -/
structure Record (w : ℕ) where
  start : BitVec w
  length : ℕ
  pos : 0 < length

variable {w : ℕ} {r : Record w} {rs : List (Record w)} {a b : BitVec w} {j off : ℕ}

/-- What the records occupy. -/
def total (rs : List (Record w)) : ℕ := (rs.map Record.length).sum

@[simp] theorem total_nil : total ([] : List (Record w)) = 0 := rfl

@[simp] theorem total_cons : total (r :: rs) = r.length + total rs := List.sum_cons

theorem total_tail_le : total rs.tail ≤ total rs := by
  cases rs with
  | nil => exact Nat.le_refl _
  | cons r rs =>
    rw [total_cons]
    exact Nat.le_add_left _ _

/-- **One behind the other**, from one pointer to another. -/
def Linked (a : BitVec w) : List (Record w) → BitVec w → Prop
  | [], b => a = b
  | r :: rs, b => r.start = a ∧ Linked (a + BitVec.ofNat w r.length) rs b

/-- The records occupy what is between the pointers. -/
theorem Linked.stop_eq (h : Linked a rs b) : b = a + BitVec.ofNat w (total rs) := by
  induction rs generalizing a with
  | nil => simpa using h.symm
  | cons r rs ih => rw [ih h.2, total_cons, BitVec.ofNat_add, add_assoc]

/-- A record at the write pointer. -/
theorem Linked.concat (h : Linked a rs b) (hr : r.start = b) :
    Linked a (rs ++ [r]) (b + BitVec.ofNat w r.length) := by
  induction rs generalizing a with
  | nil =>
    have hab : a = b := h
    rw [List.nil_append, Linked, hab]
    exact ⟨hr, rfl⟩
  | cons s rs ih => exact ⟨h.1, ih h.2⟩

/-- An address of a record, from the read pointer. -/
theorem Linked.exists_offset (h : Linked a rs b) (hr : r ∈ rs) (hj : j < r.length) :
    ∃ p < total rs, r.start + BitVec.ofNat w j = a + BitVec.ofNat w p := by
  induction rs generalizing a with
  | nil => cases hr
  | cons s rs ih =>
    rw [total_cons]
    rcases List.mem_cons.1 hr with rfl | hmem
    · exact ⟨j, by omega, by rw [h.1]⟩
    · obtain ⟨p, hp, heq⟩ := ih h.2 hmem
      exact ⟨s.length + p, by omega, by rw [heq, BitVec.ofNat_add, add_assoc]⟩

/-- Two offsets inside the memory are two addresses. -/
theorem add_ofNat_inj {j k : ℕ} (hj : j < 2 ^ w) (hk : k < 2 ^ w) :
    a + BitVec.ofNat w j = a + BitVec.ofNat w k ↔ j = k := by
  rw [add_right_inj, ← BitVec.toNat_inj, BitVec.toNat_ofNat, BitVec.toNat_ofNat,
    Nat.mod_eq_of_lt hj, Nat.mod_eq_of_lt hk]

/-- **The free space holds no record.** -/
theorem Linked.ne_of_free (h : Linked a rs b) (hoff : total rs + off < 2 ^ w) (hr : r ∈ rs)
    (hj : j < r.length) : r.start + BitVec.ofNat w j ≠ b + BitVec.ofNat w off := by
  obtain ⟨p, hp, heq⟩ := h.exists_offset hr hj
  rw [heq, h.stop_eq, add_assoc, ← BitVec.ofNat_add, Ne, add_ofNat_inj (by omega) hoff]
  omega

/-- **The distance of the pointers** is what the records occupy. -/
theorem Linked.toNat_sub (h : Linked a rs b) (hroom : total rs < 2 ^ w) :
    (b - a).toNat = total rs := by
  rw [h.stop_eq, add_sub_cancel_left, BitVec.toNat_ofNat, Nat.mod_eq_of_lt hroom]

end RecordRing

end WrCalibration
