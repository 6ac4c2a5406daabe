import Mathlib.Data.List.GetD
import Mathlib.Algebra.Order.Ring.Int
import Mathlib.Tactic.Linarith

/-!
# Python sequences and numpy arrays

What a Python program can raise, and the operations on one-dimensional
arrays the numeric code is written with: slices, `arange`, `take`,
broadcasting and `fftshift`. An array is a list; its entries are read
with `getD`, so every operation comes with the equation its entries
satisfy.
-/

namespace WrCalibration

/-- **What a Python program can raise**: the program's own exceptions
carry their text, the built-in ones only their class. -/
inductive PyErr where
  | exception (msg : String)
  | valueError
  | typeError
  | indexError
  | keyError
  | nameError
  | structError
  | attributeError
  | zeroDivisionError
  deriving DecidableEq, Repr

/-- A Python computation: it returns a value or raises. -/
abbrev Py := Except PyErr

namespace Python

variable {α β γ : Type}

/-- A computation returns one pair. -/
theorem ok_pair_inj {x : Py (α × β)} {a a' : α} {b b' : β} (h : x = .ok (a, b))
    (h' : x = .ok (a', b')) : a = a' ∧ b = b' :=
  Prod.mk.inj (Except.ok.inj (h.symm.trans h'))

/-! ## Running a computation with a state -/

section State

variable {σ : Type} {s r : σ}

theorem bind_of_ok {m : StateT σ Py α} {k : α → StateT σ Py β} {a : α} (h : m s = .ok (a, r)) :
    (m >>= k) s = k a r := by
  simp only [bind, StateT.bind, h, Except.bind]

theorem lift_of_ok {m : Py α} {a : α} (h : m = .ok a) :
    (liftM m : StateT σ Py α) s = .ok (a, s) := by
  rw [h]
  rfl

end State

/-- A computation over a list returns one value for each entry. -/
theorem length_of_mapM {f : α → Py β} {xs : List α} {ys : List β} (h : xs.mapM f = .ok ys) :
    ys.length = xs.length := by
  induction xs generalizing ys with
  | nil =>
    cases h
    rfl
  | cons x xs ih =>
    rw [List.mapM_cons] at h
    rcases hx : f x with e | y
    · rw [hx] at h
      cases h
    · rcases hxs : xs.mapM f with e | ys'
      · rw [hx, hxs] at h
        cases h
      · rw [hx, hxs] at h
        cases h
        rw [List.length_cons, List.length_cons, ih hxs]

/-- Computations that agree on the list agree over the list. -/
theorem mapM_congr_left {f g : α → Py β} {xs : List α} (h : ∀ x ∈ xs, f x = g x) :
    xs.mapM f = xs.mapM g := by
  induction xs with
  | nil => rfl
  | cons x xs ih =>
    rw [List.mapM_cons, List.mapM_cons, h x (by simp), ih fun x' hx' => h x' (by simp [hx'])]

/-- A computation over a list returns if it does for each entry. -/
theorem exists_mapM {f : α → Py β} {xs : List α} (h : ∀ x ∈ xs, ∃ y, f x = .ok y) :
    ∃ ys, xs.mapM f = .ok ys := by
  induction xs with
  | nil => exact ⟨[], rfl⟩
  | cons x xs ih =>
    obtain ⟨y, hy⟩ := h x (by simp)
    obtain ⟨ys, hys⟩ := ih fun x' hx' => h x' (by simp [hx'])
    rw [List.mapM_cons, hy, hys]
    exact ⟨y :: ys, rfl⟩

/-! ## Variables and items -/

/-- A variable that has to be bound. -/
def bound : Option α → Py α
  | some a => pure a
  | none => throw .nameError

theorem bound_of_eq {o : Option α} {a : α} (h : o = some a) : bound o = .ok a := by
  rw [h]
  rfl

/-- `xs[i]` of a list of strings, or of a string. -/
def listItem (xs : List α) (i : ℕ) : Py α :=
  match xs[i]? with
  | some x => pure x
  | none => throw .indexError

/-! ## Slices -/

/-- Where a slice bound falls in a sequence of length `n`: negative
bounds count from the end, and no bound leaves the sequence. -/
def sliceIndex (n : ℕ) (i : ℤ) : ℕ := if i < 0 then (i + n).toNat else min i.toNat n

/-- `xs[lo:]` -/
def sliceFrom (xs : List α) (lo : ℤ) : List α := xs.drop (sliceIndex xs.length lo)

/-- `xs[:hi]` -/
def sliceTo (xs : List α) (hi : ℤ) : List α := xs.take (sliceIndex xs.length hi)

/-- `xs[lo:hi]` -/
def slice (xs : List α) (lo hi : ℤ) : List α :=
  (xs.take (sliceIndex xs.length hi)).drop (sliceIndex xs.length lo)

theorem sliceIndex_natCast {n k : ℕ} (h : k ≤ n) : sliceIndex n k = k := by
  rw [sliceIndex, if_neg (by omega), Int.toNat_natCast, min_eq_left h]

theorem sliceIndex_neg {n k : ℕ} (hk : 0 < k) (h : k ≤ n) : sliceIndex n (-k) = n - k := by
  rw [sliceIndex, if_pos (by omega)]
  omega

theorem sliceTo_natCast {xs : List α} {k : ℕ} (h : k ≤ xs.length) : sliceTo xs k = xs.take k := by
  rw [sliceTo, sliceIndex_natCast h]

/-- A slice from the start is as long as asked for, or is everything. -/
theorem length_sliceTo_natCast (xs : List α) (k : ℕ) :
    (sliceTo xs k).length = min k xs.length := by
  rw [sliceTo, sliceIndex, if_neg (by omega), Int.toNat_natCast, List.length_take]
  omega

theorem sliceFrom_neg {xs : List α} {k : ℕ} (hk : 0 < k) (h : k ≤ xs.length) :
    sliceFrom xs (-k) = xs.drop (xs.length - k) := by
  rw [sliceFrom, sliceIndex_neg hk h]

theorem slice_natCast {xs : List α} {lo hi : ℕ} (hlo : lo ≤ xs.length) (hhi : hi ≤ xs.length) :
    slice xs lo hi = (xs.take hi).drop lo := by
  rw [slice, sliceIndex_natCast hlo, sliceIndex_natCast hhi]

/-- A slice that ends where it begins. -/
theorem slice_self (xs : List α) (i : ℤ) : slice xs i i = [] :=
  List.drop_of_length_le (by rw [List.length_take]; omega)

theorem sliceTo_zero (xs : List α) : sliceTo xs 0 = [] := rfl

/-! ## Ranges -/

/-- `arange(lo, hi)` with step one. -/
def arange (lo hi : ℤ) : List ℤ := (List.range (hi - lo).toNat).map fun i : ℕ => lo + i

@[simp] theorem length_arange (lo hi : ℤ) : (arange lo hi).length = (hi - lo).toNat := by
  simp [arange]

theorem getElem_arange {lo hi : ℤ} {m : ℕ} (h : m < (arange lo hi).length) :
    (arange lo hi)[m] = lo + m := by
  simp [arange]

theorem mem_arange {lo hi x : ℤ} : x ∈ arange lo hi ↔ lo ≤ x ∧ x < hi := by
  simp only [arange, List.mem_map, List.mem_range]
  constructor
  · rintro ⟨i, hi', rfl⟩
    omega
  · rintro ⟨h1, h2⟩
    exact ⟨(x - lo).toNat, by omega, by omega⟩

/-- The entry of a range at the offset of a label is that label. -/
theorem getD_arange {lo hi : ℤ} {m : ℕ} (h : m < (hi - lo).toNat) (d : ℤ) :
    (arange lo hi).getD m d = lo + m := by
  rw [List.getD_eq_getElem _ _ (by simpa using h), getElem_arange]

theorem arange_natCast (lo hi : ℕ) : arange lo hi = (List.range' lo (hi - lo)).map Nat.cast := by
  refine List.ext_getElem (by simp) fun m _ _ => ?_
  simp [getElem_arange]

/-- Reading a run of positions is a slice. -/
theorem map_getD_range' {xs : List α} {lo k : ℕ} (h : lo + k ≤ xs.length) (d : α) :
    (List.range' lo k).map (fun j => xs.getD j d) = (xs.drop lo).take k := by
  refine List.ext_getElem (by simp; omega) fun m hm _ => ?_
  simp only [List.length_map, List.length_range'] at hm
  simp only [List.getElem_map, List.getElem_range', List.getElem_take, List.getElem_drop, one_mul]
  rw [List.getD_eq_getElem _ _ (by omega)]

/-- Two ranges that meet are one. -/
theorem arange_append {lo mid hi : ℤ} (h : lo ≤ mid) (h' : mid ≤ hi) :
    arange lo mid ++ arange mid hi = arange lo hi := by
  refine List.ext_getElem (by simp; omega) fun m hm hm' => ?_
  rw [getElem_arange hm']
  rcases Nat.lt_or_ge m (arange lo mid).length with hlt | hge
  · rw [List.getElem_append_left hlt, getElem_arange hlt]
  · rw [List.getElem_append_right hge, getElem_arange]
    rw [length_arange] at hge ⊢
    omega

/-- `zeros(n)`, which refuses a negative dimension. -/
def zeros [Zero α] (n : ℤ) : Py (List α) :=
  if n < 0 then throw .valueError else pure (List.replicate n.toNat 0)

theorem zeros_natCast [Zero α] (n : ℕ) : (zeros n : Py (List α)) = .ok (List.replicate n 0) := by
  rw [zeros, if_neg (by omega), Int.toNat_natCast]
  rfl

/-! ## Elementwise operations -/

/-- **An elementwise operation on two arrays**: equal lengths pair up, an
array of length one is repeated, and any other pair of lengths is
refused. -/
def broadcast (f : α → β → γ) (xs : List α) (ys : List β) : Py (List γ) :=
  if xs.length = ys.length then pure (List.zipWith f xs ys)
  else match xs, ys with
    | [x], ys => pure (ys.map (f x))
    | xs, [y] => pure (xs.map (f · y))
    | _, _ => throw .valueError

theorem broadcast_of_length_eq (f : α → β → γ) {xs : List α} {ys : List β}
    (h : xs.length = ys.length) : broadcast f xs ys = .ok (List.zipWith f xs ys) := by
  unfold broadcast
  rw [if_pos h]
  rfl

/-- An array of length one is compared with every entry. -/
theorem broadcast_singleton_right (f : α → β → γ) (xs : List α) (y : β) :
    broadcast f xs [y] = .ok (xs.map (f · y)) := by
  match xs with
  | [] => rfl
  | [_] => rfl
  | _ :: _ :: _ => rfl

/-- Two arrays of different lengths, none of them one, are refused. -/
theorem broadcast_of_length_ne (f : α → β → γ) {xs : List α} {ys : List β}
    (h : xs.length ≠ ys.length) (hx : xs.length ≠ 1) (hy : ys.length ≠ 1) :
    broadcast f xs ys = .error .valueError := by
  unfold broadcast
  rw [if_neg h]
  split
  · exact absurd rfl hx
  · exact absurd rfl hy
  · rfl

/-- Every other pair of lengths is accepted. -/
theorem exists_broadcast (f : α → β → γ) {xs : List α} {ys : List β}
    (h : xs.length = ys.length ∨ xs.length = 1 ∨ ys.length = 1) :
    ∃ zs, broadcast f xs ys = .ok zs := by
  unfold broadcast
  split
  · exact ⟨_, rfl⟩
  · rename_i hne
    rcases h with heq | hx | hy
    · exact absurd heq hne
    · obtain ⟨x, rfl⟩ := List.length_eq_one_iff.1 hx
      exact ⟨_, rfl⟩
    · obtain ⟨y, rfl⟩ := List.length_eq_one_iff.1 hy
      split
      · exact ⟨_, rfl⟩
      · exact ⟨_, rfl⟩
      · rename_i hno
        exact absurd rfl (hno y)

/-- The entries of an elementwise operation that fixes the padding. -/
theorem getD_zipWith (f : α → β → γ) {xs : List α} {ys : List β} (h : xs.length = ys.length)
    (a : α) (b : β) (m : ℕ) :
    (List.zipWith f xs ys).getD m (f a b) = f (xs.getD m a) (ys.getD m b) := by
  rcases Nat.lt_or_ge m xs.length with hm | hm
  · rw [List.getD_eq_getElem _ _ (by simp; omega), List.getD_eq_getElem _ _ hm,
      List.getD_eq_getElem _ _ (by omega), List.getElem_zipWith]
  · rw [List.getD_eq_default _ _ (by simp; omega), List.getD_eq_default _ _ hm,
      List.getD_eq_default _ _ (by omega)]

/-! ## Taking and shifting -/

/-- How `take` treats an index outside the array. -/
inductive TakeMode where
  | raise | wrap | clip
  deriving DecidableEq, Repr

/-- The position an index of `take` names in an array of length `n`. -/
def takeIndex (mode : TakeMode) (n : ℕ) (i : ℤ) : Py ℕ :=
  match mode with
  | .raise => if 0 ≤ i ∧ i < n then pure i.toNat
      else if -(n : ℤ) ≤ i ∧ i < 0 then pure (i + n).toNat else throw .indexError
  | .wrap => if n = 0 then throw .indexError else pure (i % n).toNat
  | .clip => if n = 0 then throw .indexError else pure (min i.toNat (n - 1))

/-- `xs.take(indices, mode=mode)` -/
def take (xs : List α) (indices : List ℤ) (mode : TakeMode) : Py (List α) :=
  indices.mapM fun i => do
    let j ← takeIndex mode xs.length i
    match xs[j]? with
    | some x => pure x
    | none => throw .indexError

theorem takeIndex_natCast (mode : TakeMode) {n j : ℕ} (h : j < n) :
    takeIndex mode n j = .ok j := by
  cases mode with
  | raise =>
    rw [takeIndex, if_pos (by omega), Int.toNat_natCast]
    rfl
  | wrap =>
    rw [takeIndex, if_neg (by omega), Int.emod_eq_of_lt (by omega) (by omega), Int.toNat_natCast]
    rfl
  | clip =>
    rw [takeIndex, if_neg (by omega), Int.toNat_natCast, min_eq_left (by omega)]
    rfl

/-- **`take` reads where its indices point**, if the mode gives every
index a position of the array. -/
theorem take_eq {xs : List α} {mode : TakeMode} {idx : ℤ → ℕ} (d : α) :
    ∀ {is : List ℤ}, (∀ i ∈ is, takeIndex mode xs.length i = .ok (idx i) ∧ idx i < xs.length) →
      take xs is mode = .ok (is.map fun i => xs.getD (idx i) d) := by
  intro is
  induction is with
  | nil => intro _; rfl
  | cons i is ih =>
    intro h
    obtain ⟨hi, hlt⟩ := h i (by simp)
    have htail := ih fun i' hi' => h i' (by simp [hi'])
    simp only [take] at htail ⊢
    rw [List.mapM_cons, htail, hi]
    simp [List.getElem?_eq_getElem hlt, bind, Except.bind, pure, Except.pure]

/-- Indices inside the array mean the same in every mode. -/
theorem take_natCast {xs : List α} {mode : TakeMode} (d : α) {js : List ℕ}
    (h : ∀ j ∈ js, j < xs.length) :
    take xs (js.map Nat.cast) mode = .ok (js.map fun j => xs.getD j d) := by
  have hidx : ∀ i ∈ js.map (Nat.cast : ℕ → ℤ),
      takeIndex mode xs.length i = .ok i.toNat ∧ i.toNat < xs.length := by
    intro i hi
    obtain ⟨j, hj, rfl⟩ := List.mem_map.1 hi
    exact ⟨takeIndex_natCast mode (h j hj), h j hj⟩
  rw [take_eq d hidx, List.map_map]
  rfl

/-- Clipped indices outside the array read its ends. -/
theorem take_clip {xs : List α} (d : α) (h : xs ≠ []) (is : List ℤ) :
    take xs is .clip = .ok (is.map fun i => xs.getD (min i.toNat (xs.length - 1)) d) := by
  have hpos := List.length_pos_iff.2 h
  refine take_eq d fun i _ => ⟨?_, by omega⟩
  rw [takeIndex, if_neg (by omega)]
  rfl

/-- `fftshift(xs)`: the second half first. -/
def fftshift (xs : List α) : List α :=
  xs.drop ((xs.length + 1) / 2) ++ xs.take ((xs.length + 1) / 2)

@[simp] theorem length_fftshift (xs : List α) : (fftshift xs).length = xs.length := by
  simp only [fftshift, List.length_append, List.length_drop, List.length_take]
  omega

/-- **`fftshift` is a roll** by half the length, rounded up. -/
theorem getD_fftshift (xs : List α) {m : ℕ} (h : m < xs.length) (d : α) :
    (fftshift xs).getD m d = xs.getD ((m + (xs.length + 1) / 2) % xs.length) d := by
  have hp : (xs.length + 1) / 2 ≤ xs.length := by omega
  rw [fftshift]
  rcases Nat.lt_or_ge m (xs.length - (xs.length + 1) / 2) with hm | hm
  · rw [List.getD_append _ _ _ _ (by simpa using hm), Nat.mod_eq_of_lt (by omega)]
    simp [List.getD_eq_getElem?_getD, List.getElem?_drop, add_comm]
  · rw [List.getD_append_right _ _ _ _ (by simpa using hm), Nat.mod_eq_sub_mod (by omega),
      Nat.mod_eq_of_lt (by omega), List.length_drop]
    simp only [List.getD_eq_getElem?_getD, List.getElem?_take]
    rw [if_pos (by omega)]
    congr 2
    omega

/-! ## Writing -/

/-- `xs[i] = x` -/
def setItem (xs : List α) (i : ℤ) (x : α) : Py (List α) :=
  if 0 ≤ i ∧ i < xs.length then pure (xs.set i.toNat x)
  else if -(xs.length : ℤ) ≤ i ∧ i < 0 then pure (xs.set (i + xs.length).toNat x)
  else throw .indexError

theorem setItem_natCast {xs : List α} {k : ℕ} (h : k < xs.length) (x : α) :
    setItem xs k x = .ok (xs.set k x) := by
  rw [setItem, if_pos (by omega), Int.toNat_natCast]
  rfl

/-- **Writing the positions of an array from the last to the first**
leaves the written values in reverse order of writing. -/
theorem foldl_set_reverse (z : α) (v : ℕ → α) (n : ℕ) :
    (List.range n).foldl (fun acc k => acc.set (n - 1 - k) (v k)) (List.replicate n z) =
      (List.range n).map fun p => v (n - 1 - p) := by
  have key : ∀ m, m ≤ n →
      (List.range m).foldl (fun acc k => acc.set (n - 1 - k) (v k)) (List.replicate n z) =
        List.replicate (n - m) z ++ (List.range m).map fun p => v (m - 1 - p) := by
    intro m
    induction m with
    | zero => intro _; simp
    | succ m ih =>
      intro hm
      rw [List.range_succ, List.foldl_append, ih (by omega)]
      have hsplit : List.replicate (n - m) z = List.replicate (n - (m + 1)) z ++ [z] := by
        rw [← List.replicate_succ', show n - (m + 1) + 1 = n - m by omega]
      rw [hsplit, List.append_assoc, List.foldl_cons, List.foldl_nil,
        List.set_append_right _ _ (by simp; omega), ← List.range_succ, List.range_succ_eq_map]
      simp only [List.length_replicate, List.map_cons, List.map_map]
      rw [show n - 1 - m - (n - (m + 1)) = 0 by omega]
      refine congrArg _ ?_
      rw [List.singleton_append, List.set_cons_zero]
      refine congrArg₂ _ (by simp) (List.map_congr_left fun p hp => ?_)
      have := List.mem_range.1 hp
      exact congrArg v (by simp; omega)
  simpa using key n le_rfl

/-- A loop that writes one position in every pass. -/
theorem foldlM_set {ι : Type} {step : List α → ι → Py (List α)} {idx : ι → ℕ} {v : ι → α} {n : ℕ} :
    ∀ {ks : List ι} {acc : List α}, acc.length = n →
      (∀ k ∈ ks, ∀ acc : List α, acc.length = n → step acc k = .ok (acc.set (idx k) (v k))) →
      ks.foldlM step acc = .ok (ks.foldl (fun acc k => acc.set (idx k) (v k)) acc) := by
  intro ks
  induction ks with
  | nil => intro acc _ _; rfl
  | cons k ks ih =>
    intro acc hacc h
    rw [List.foldlM_cons, h k (by simp) acc hacc, List.foldl_cons]
    exact ih (by simpa using hacc) fun k' hk' => h k' (by simp [hk'])

/-- A loop whose first pass raises. -/
theorem foldlM_error {ι : Type} {step : β → ι → Py β} {ks : List ι} {acc : β} {e : PyErr}
    (hne : ks ≠ []) (h : ∀ k ∈ ks, step acc k = .error e) : ks.foldlM step acc = .error e := by
  cases ks with
  | nil => exact absurd rfl hne
  | cons k ks =>
    rw [List.foldlM_cons, h k (by simp)]
    rfl

/-- A loop returns if every pass does, and keeps what every pass keeps. -/
theorem exists_foldlM {ι : Type} {step : β → ι → Py β} {P : β → Prop} :
    ∀ {ks : List ι} {acc : β}, P acc →
      (∀ k ∈ ks, ∀ acc, P acc → ∃ acc', step acc k = .ok acc' ∧ P acc') →
      ∃ r, ks.foldlM step acc = .ok r ∧ P r := by
  intro ks
  induction ks with
  | nil => intro acc hacc _; exact ⟨acc, rfl, hacc⟩
  | cons k ks ih =>
    intro acc hacc h
    obtain ⟨acc', hstep, hacc'⟩ := h k (by simp) acc hacc
    rw [List.foldlM_cons, hstep]
    exact ih hacc' fun k' hk' => h k' (by simp [hk'])

/-! ## Dictionaries -/

/-- A dictionary, as its items. -/
abbrev Dict (κ ν : Type) := List (κ × ν)

section Dict

variable {κ ν : Type} [DecidableEq κ]

/-- `d.get(k)` -/
def Dict.get? : Dict κ ν → κ → Option ν
  | [], _ => none
  | (k', v) :: d, k => if k' = k then some v else Dict.get? d k

/-- `d[k] = v` -/
def Dict.set : Dict κ ν → κ → ν → Dict κ ν
  | [], k, v => [(k, v)]
  | (k', v') :: d, k, v => if k' = k then (k, v) :: d else (k', v') :: Dict.set d k v

/-- `d[k]` -/
def Dict.getItem (d : Dict κ ν) (k : κ) : Py ν :=
  match Dict.get? d k with
  | some v => pure v
  | none => throw .keyError

/-- Setting a key is seen at that key only. -/
theorem Dict.get?_set (d : Dict κ ν) (k k' : κ) (v : ν) :
    Dict.get? (Dict.set d k v) k' = if k = k' then some v else Dict.get? d k' := by
  induction d with
  | nil => rfl
  | cons item d ih =>
    obtain ⟨k₀, v₀⟩ := item
    by_cases h : k₀ = k
    · subst h
      simp only [Dict.set, if_true, Dict.get?]
      split <;> rfl
    · simp only [Dict.set, if_neg h, Dict.get?, ih]
      split
      · rename_i h'
        rw [if_neg fun hk => h (h'.trans hk.symm)]
      · rfl

theorem Dict.get?_set_self (d : Dict κ ν) (k : κ) (v : ν) :
    Dict.get? (Dict.set d k v) k = some v := by
  rw [Dict.get?_set, if_pos rfl]

theorem Dict.get?_set_of_ne (d : Dict κ ν) {k k' : κ} (h : k ≠ k') (v : ν) :
    Dict.get? (Dict.set d k v) k' = Dict.get? d k' := by
  rw [Dict.get?_set, if_neg h]

theorem Dict.getItem_of_get? {d : Dict κ ν} {k : κ} {v : ν} (h : Dict.get? d k = some v) :
    Dict.getItem d k = .ok v := by
  rw [Dict.getItem, h]
  rfl

/-- A dictionary filled from a list leaves other keys alone. -/
theorem Dict.get?_foldl_set_of_not_mem {ι : Type} {key : ι → κ} {val : ι → ν} {k : κ} :
    ∀ {xs : List ι} {d : Dict κ ν}, (∀ x ∈ xs, key x ≠ k) →
      Dict.get? (xs.foldl (fun d x => Dict.set d (key x) (val x)) d) k = Dict.get? d k := by
  intro xs
  induction xs with
  | nil => intro d _; rfl
  | cons x xs ih =>
    intro d h
    rw [List.foldl_cons, ih fun x' hx' => h x' (by simp [hx']),
      Dict.get?_set_of_ne _ (h x (by simp))]

/-- **A dictionary filled from a list with distinct keys** holds every
item. -/
theorem Dict.get?_foldl_set {ι : Type} {key : ι → κ} {val : ι → ν} :
    ∀ {xs : List ι} {d : Dict κ ν}, (xs.map key).Nodup → ∀ x ∈ xs,
      Dict.get? (xs.foldl (fun d x => Dict.set d (key x) (val x)) d) (key x) = some (val x) := by
  intro xs
  induction xs with
  | nil => intro d _ x hx; cases hx
  | cons x xs ih =>
    intro d hnd y hy
    rw [List.map_cons, List.nodup_cons] at hnd
    rw [List.foldl_cons]
    rcases List.mem_cons.1 hy with rfl | hy
    · rw [Dict.get?_foldl_set_of_not_mem fun x' hx' heq =>
        hnd.1 (List.mem_map.2 ⟨x', hx', heq⟩), Dict.get?_set_self]
    · exact ih hnd.2 y hy

/-- The keys of a dictionary that is filled from a list, and its items then
replaced. -/
theorem Dict.isSome_get?_replaced {ι : Type} {key : ι → κ} {val val' : ι → ν} {xs : List ι}
    (hnd : (xs.map key).Nodup) (k : κ) :
    (Dict.get? (xs.foldl (fun d x => Dict.set d (key x) (val' x))
      (xs.foldl (fun d x => Dict.set d (key x) (val x)) [])) k).isSome = true ↔
        ∃ x ∈ xs, k = key x := by
  constructor
  · intro hsome
    by_contra hnone
    push Not at hnone
    have hout : ∀ x ∈ xs, key x ≠ k := fun x hx => (hnone x hx).symm
    rw [Dict.get?_foldl_set_of_not_mem hout, Dict.get?_foldl_set_of_not_mem hout] at hsome
    cases hsome
  · rintro ⟨x, hx, rfl⟩
    rw [Dict.get?_foldl_set hnd x hx]
    rfl

end Dict

end Python

end WrCalibration
