import WrCalibration.Common.Bytes

/-!
# Reading a file

A file opened for reading is the bytes still ahead. `readline` and
`read` consume from the front, and the loop every reader here is built
on takes one line at a time until the file ends or its body leaves it.
A body that never puts bytes back (`Shrinks`) makes the loop total, and
`forLines_eq` unfolds it without counting passes.
-/

namespace WrCalibration

/-- A computation that reads from an open file. -/
abbrev FileM := StateT Bytes Py

namespace FileM

open Python

variable {α β σ : Type} {f l r rest : Bytes}

/-- The first line, with its newline if it has one, and what follows. -/
def splitLine : Bytes → Bytes × Bytes
  | [] => ([], [])
  | b :: f =>
    if b = newline then ([newline], f)
    else (b :: (splitLine f).1, (splitLine f).2)

/-- `file.readline()`, empty at the end of the file. -/
def readline : FileM Bytes := fun f => pure (splitLine f)

/-- `file.read(n)`; a negative count reads everything. -/
def read (n : ℤ) : FileM Bytes := fun f =>
  pure (if n < 0 then (f, []) else (f.take n.toNat, f.drop n.toNat))

/-- **The loop of a reader**: `body` sees each line, and leaves the loop
with `done`. -/
def linesLoop (body : Bytes → σ → FileM (ForInStep σ)) : ℕ → σ → FileM σ
  | 0, st => pure st
  | passes + 1, st => do
    let line ← readline
    if line.length = 0 then pure st
    else match ← body line st with
      | .done st => pure st
      | .yield st => linesLoop body passes st

/-- The loop with as many passes as there can be lines. -/
def forLines (body : Bytes → σ → FileM (ForInStep σ)) (st : σ) : FileM σ := fun f =>
  linesLoop body (f.length + 1) st f

/-! ## Running -/

theorem readline_line (h : splitLine f = (l, r)) : readline f = .ok (l, r) := by
  rw [← h]
  rfl

/-- Reading a block of known length. -/
theorem read_append {n : ℤ} {block : Bytes} (h : (block.length : ℤ) = n) :
    read n (block ++ rest) = .ok (block, rest) := by
  rw [← h, read, if_neg (by omega), Int.toNat_natCast, List.take_left, List.drop_left]
  rfl

/-! ## Consuming -/

theorem splitLine_line (h : newline ∉ l) :
    splitLine (l ++ newline :: rest) = (l ++ [newline], rest) := by
  induction l with
  | nil => simp [splitLine]
  | cons b l ih =>
    rw [List.mem_cons, not_or] at h
    rw [List.cons_append, splitLine, if_neg (Ne.symm h.1), ih h.2]
    rfl

/-- What follows the last newline is a line too. -/
theorem splitLine_of_not_mem (h : newline ∉ l) : splitLine l = (l, []) := by
  induction l with
  | nil => rfl
  | cons b l ih =>
    rw [List.mem_cons, not_or] at h
    rw [splitLine, if_neg (Ne.symm h.1), ih h.2]

theorem splitLine_ne_nil (h : f ≠ []) : (splitLine f).1 ≠ [] := by
  cases f with
  | nil => exact absurd rfl h
  | cons b f =>
    rw [splitLine]
    split <;> simp

theorem length_splitLine (f : Bytes) :
    (splitLine f).1.length + (splitLine f).2.length = f.length := by
  induction f with
  | nil => rfl
  | cons b f ih =>
    rw [splitLine]
    split
    · simp only [List.length_cons, List.length_nil]
      omega
    · simp only [List.length_cons]
      omega

/-- A computation that never puts bytes back. -/
def Shrinks (m : FileM α) : Prop := ∀ f a r, m f = .ok (a, r) → r.length ≤ f.length

theorem Shrinks.pure (a : α) : Shrinks (Pure.pure a : FileM α) := by
  rintro f a' r h
  obtain ⟨-, rfl⟩ := Prod.mk.inj (Except.ok.inj h)
  exact le_rfl

/-- A computation that does not read. -/
theorem Shrinks.lift (m : Py α) : Shrinks (liftM m : FileM α) := by
  intro f a r h
  cases m with
  | error e =>
    change Except.error e = Except.ok (a, r) at h
    cases h
  | ok a' =>
    obtain ⟨-, rfl⟩ := Prod.mk.inj (Except.ok.inj h)
    exact le_rfl

theorem Shrinks.bind {m : FileM α} {k : α → FileM β} (hm : Shrinks m) (hk : ∀ a, Shrinks (k a)) :
    Shrinks (m >>= k) := by
  intro f b r h
  rcases hrun : m f with e | ⟨a, r'⟩
  · simp only [Bind.bind, StateT.bind, Except.bind, hrun] at h
    cases h
  · have hb : k a r' = .ok (b, r) := by
      simpa only [Bind.bind, StateT.bind, Except.bind, hrun] using h
    exact (hk a _ _ _ hb).trans (hm _ _ _ hrun)

theorem Shrinks.readline : Shrinks readline := by
  intro f a r h
  obtain ⟨-, rfl⟩ := Prod.mk.inj (Except.ok.inj h)
  have := length_splitLine f
  omega

theorem Shrinks.read (n : ℤ) : Shrinks (read n) := by
  intro f a r h
  have h' := Except.ok.inj h
  split at h'
  · obtain ⟨-, rfl⟩ := Prod.mk.inj h'
    exact Nat.zero_le _
  · obtain ⟨-, rfl⟩ := Prod.mk.inj h'
    rw [List.length_drop]
    omega

theorem Shrinks.ite {p : Prop} [Decidable p] {m m' : FileM α} (hm : Shrinks m) (hm' : Shrinks m') :
    Shrinks (if p then m else m') := by
  split
  · exact hm
  · exact hm'

/-! ## The loop -/

section Loop

variable {body : Bytes → σ → FileM (ForInStep σ)}

/-- One pass of the loop over a file that has not ended. -/
theorem linesLoop_succ {passes : ℕ} {st : σ} (h : f ≠ []) :
    linesLoop body (passes + 1) st f =
      match body (splitLine f).1 st (splitLine f).2 with
      | .error e => .error e
      | .ok (.done st, rest) => .ok (st, rest)
      | .ok (.yield st, rest) => linesLoop body passes st rest := by
  have hne : (splitLine f).1.length ≠ 0 := fun h0 =>
    splitLine_ne_nil h (List.length_eq_zero_iff.1 h0)
  simp only [linesLoop, readline, Bind.bind, StateT.bind, Except.bind, Pure.pure, Except.pure,
    if_neg hne]
  rcases body (splitLine f).1 st (splitLine f).2 with e | ⟨step, rest⟩
  · rfl
  · cases step <;> rfl

theorem linesLoop_nil {passes : ℕ} {st : σ} : linesLoop body passes st [] = .ok (st, []) := by
  cases passes <;> rfl

/-- More passes than bytes change nothing. -/
theorem linesLoop_passes (hb : ∀ line st, Shrinks (body line st)) :
    ∀ {passes passes' : ℕ} {st : σ} {f : Bytes}, f.length < passes → f.length < passes' →
      linesLoop body passes st f = linesLoop body passes' st f := by
  intro passes
  induction passes with
  | zero => intro _ _ _ h; omega
  | succ passes ih =>
    intro passes' st f h h'
    cases passes' with
    | zero => omega
    | succ passes' =>
      rcases eq_or_ne f [] with rfl | hne
      · rw [linesLoop_nil, linesLoop_nil]
      · rw [linesLoop_succ hne, linesLoop_succ hne]
        have hpos : 0 < (splitLine f).1.length := List.length_pos_iff.2 (splitLine_ne_nil hne)
        have hlen := length_splitLine f
        rcases hrun : body (splitLine f).1 st (splitLine f).2 with e | ⟨step, rest⟩
        · rfl
        · have := hb _ _ _ _ _ hrun
          cases step with
          | done st => rfl
          | yield st => exact ih (by omega) (by omega)

/-- A loop whose body never puts bytes back does not either. -/
theorem Shrinks.forLines (hb : ∀ line st, Shrinks (body line st)) (st : σ) :
    Shrinks (forLines body st) := by
  have key : ∀ passes st, Shrinks (linesLoop body passes st) := by
    intro passes
    induction passes with
    | zero => exact fun st => Shrinks.pure st
    | succ passes ih =>
      refine fun st => Shrinks.readline.bind fun line => (Shrinks.pure st).ite ?_
      refine (hb line st).bind fun step => ?_
      cases step with
      | done st => exact Shrinks.pure st
      | yield st => exact ih st
  exact fun f => key _ st f

theorem forLines_nil {st : σ} : forLines body st [] = .ok (st, []) := linesLoop_nil

/-- **The loop, one line at a time.** -/
theorem forLines_eq (hb : ∀ line st, Shrinks (body line st)) {st : σ} (h : f ≠ []) :
    forLines body st f =
      match body (splitLine f).1 st (splitLine f).2 with
      | .error e => .error e
      | .ok (.done st, rest) => .ok (st, rest)
      | .ok (.yield st, rest) => forLines body st rest := by
  rw [forLines, linesLoop_succ h]
  have hpos : 0 < (splitLine f).1.length := List.length_pos_iff.2 (splitLine_ne_nil h)
  have hlen := length_splitLine f
  rcases hrun : body (splitLine f).1 st (splitLine f).2 with e | ⟨step, rest⟩
  · rfl
  · have := hb _ _ _ _ _ hrun
    cases step with
    | done st => rfl
    | yield st => exact linesLoop_passes hb (by omega) (by omega)

/-- A line the body stays in the loop for. -/
theorem forLines_yield (hb : ∀ line st, Shrinks (body line st)) {st st' : σ} (hl : newline ∉ l)
    (h : body (l ++ [newline]) st rest = .ok (.yield st', r)) :
    forLines body st (l ++ newline :: rest) = forLines body st' r := by
  rw [forLines_eq hb (by simp), splitLine_line hl, h]

/-- A line the body leaves the loop for. -/
theorem forLines_done (hb : ∀ line st, Shrinks (body line st)) {st st' : σ} (hl : newline ∉ l)
    (h : body (l ++ [newline]) st rest = .ok (.done st', r)) :
    forLines body st (l ++ newline :: rest) = .ok (st', r) := by
  rw [forLines_eq hb (by simp), splitLine_line hl, h]

/-- **Lines the body takes without reading on** fold over the state. -/
theorem forLines_lines (hb : ∀ line st, Shrinks (body line st)) {step : σ → Bytes → Py σ} :
    ∀ {ls : List Bytes} {st st' : σ}, (∀ l ∈ ls, newline ∉ l) →
      (∀ l ∈ ls, ∀ st st' rest, step st l = .ok st' →
        body (l ++ [newline]) st rest = .ok (.yield st', rest)) →
      ls.foldlM step st = .ok st' →
      forLines body st (ls.flatMap (· ++ [newline]) ++ rest) = forLines body st' rest := by
  intro ls
  induction ls with
  | nil =>
    intro st st' _ _ h
    rw [show st = st' from Except.ok.inj h]
    rfl
  | cons l ls ih =>
    intro st st' hl hbody h
    rw [List.foldlM_cons] at h
    rcases hstep : step st l with e | st₁
    · rw [hstep] at h
      cases h
    · rw [hstep] at h
      rw [List.flatMap_cons, List.append_assoc, List.append_assoc, List.singleton_append,
        forLines_yield hb (hl l (by simp)) (hbody l (by simp) _ _ _ hstep)]
      exact ih (fun l' h' => hl l' (by simp [h'])) (fun l' h' => hbody l' (by simp [h'])) h

/-- Lines the body does nothing for are passed over. -/
theorem forLines_skip (hb : ∀ line st, Shrinks (body line st)) {st : σ} :
    ∀ {ls : List Bytes}, (∀ l ∈ ls, newline ∉ l) →
      (∀ l ∈ ls, ∀ rest, body (l ++ [newline]) st rest = .ok (.yield st, rest)) →
      forLines body st (ls.flatMap (· ++ [newline]) ++ rest) = forLines body st rest := by
  intro ls
  induction ls with
  | nil => intro _ _; rfl
  | cons l ls ih =>
    intro hl hbody
    rw [List.flatMap_cons, List.append_assoc, List.append_assoc, List.singleton_append,
      forLines_yield hb (hl l (by simp)) (hbody l (by simp) _)]
    exact ih (fun l' h' => hl l' (by simp [h'])) fun l' h' => hbody l' (by simp [h'])

end Loop

end FileM

end WrCalibration
