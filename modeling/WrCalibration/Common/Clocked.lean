import Mathlib.Data.List.Basic
import Mathlib.Data.List.GetD
import Mathlib.Data.Nat.Find

/-!
# Clocked machines

A machine takes one step at each clock edge, from its state and the
inputs of that cycle. `run` is its state after a list of cycles and
`trace` the cycles themselves, each with the state it began in. A
property that holds from cycle to cycle, with the number of cycles as a
parameter, is carried through a run by `run_counted` and to every cycle
by `trace_counted`. Where nothing bounds the number of cycles, they come
as a sequence, and `upTo` takes the first of them.
-/

namespace WrCalibration

namespace Clocked

variable {σ ι ω : Type} {step : σ → ι → σ} {s : σ} {ins ins' : List ι}

/-- The state after a list of cycles. -/
def run (step : σ → ι → σ) (s : σ) (ins : List ι) : σ := ins.foldl step s

/-- The cycles of a run: the state before the edge, and the inputs. -/
def trace (step : σ → ι → σ) : σ → List ι → List (σ × ι)
  | _, [] => []
  | s, i :: ins => (s, i) :: trace step (step s i) ins

@[simp] theorem run_nil : run step s [] = s := rfl

@[simp] theorem run_cons {i : ι} : run step s (i :: ins) = run step (step s i) ins := rfl

theorem run_append : run step s (ins ++ ins') = run step (run step s ins) ins' :=
  List.foldl_append

theorem trace_append :
    trace step s (ins ++ ins') = trace step s ins ++ trace step (run step s ins) ins' := by
  induction ins generalizing s with
  | nil => rfl
  | cons i ins ih => simp only [List.cons_append, trace, run_cons, ih]

@[simp] theorem length_trace : (trace step s ins).length = ins.length := by
  induction ins generalizing s with
  | nil => rfl
  | cons i ins ih => rw [trace, List.length_cons, ih, List.length_cons]

theorem mem_of_mem_trace {c : σ × ι} (h : c ∈ trace step s ins) : c.2 ∈ ins := by
  induction ins generalizing s with
  | nil => cases h
  | cons i ins ih =>
    rw [trace, List.mem_cons] at h
    rcases h with rfl | h
    · exact List.mem_cons_self
    · exact List.mem_cons_of_mem _ (ih h)

/-- **An invariant** of every step holds after every run. -/
theorem run_invariant {p : σ → Prop} (h : p s) (hstep : ∀ s i, p s → p (step s i)) :
    p (run step s ins) := by
  induction ins generalizing s with
  | nil => exact h
  | cons i ins ih => exact ih (hstep s i h)

/-- An invariant of the steps that a run takes, under a condition on its
cycles, holds in each of them. -/
theorem trace_guarded {p : σ → Prop} {q : σ × ι → Prop} (h : p s)
    (hstep : ∀ s i, q (s, i) → p s → p (step s i)) (hq : ∀ c ∈ trace step s ins, q c) :
    ∀ c ∈ trace step s ins, p c.1 := by
  induction ins generalizing s with
  | nil => intro c hc; cases hc
  | cons i ins ih =>
    obtain ⟨hnow, hrest⟩ := List.forall_mem_cons.1 hq
    exact List.forall_mem_cons.2 ⟨h, ih (hstep s i hnow h) hrest⟩

@[inherit_doc trace_guarded]
theorem run_guarded {p : σ → Prop} {q : σ × ι → Prop} (h : p s)
    (hstep : ∀ s i, q (s, i) → p s → p (step s i)) (hq : ∀ c ∈ trace step s ins, q c) :
    p (run step s ins) := by
  induction ins generalizing s with
  | nil => exact h
  | cons i ins ih =>
    obtain ⟨hnow, hrest⟩ := List.forall_mem_cons.1 hq
    exact ih (hstep s i hnow h) hrest

/-- **A counted invariant**: what holds after each number of cycles. -/
theorem run_counted {p : ℕ → σ → Prop} {k : ℕ} (h : p k s)
    (hstep : ∀ j, ∀ i ∈ ins, ∀ s, k ≤ j → j < k + ins.length → p j s → p (j + 1) (step s i)) :
    p (k + ins.length) (run step s ins) := by
  induction ins generalizing s k with
  | nil => exact h
  | cons i ins ih =>
    have hone : p (k + 1) (step s i) := hstep k i (by simp) s (Nat.le_refl k) (by simp) h
    have hlen : k + (i :: ins).length = k + 1 + ins.length := by
      rw [List.length_cons]
      omega
    rw [hlen] at hstep ⊢
    exact ih hone fun j i' hi' s hj => hstep j i' (by simp [hi']) s (Nat.le_of_succ_le hj)

/-- A counted invariant holds in every cycle of a run. -/
theorem trace_counted {p : ℕ → σ → Prop} {k : ℕ} (h : p k s)
    (hstep : ∀ j, ∀ i ∈ ins, ∀ s, k ≤ j → j < k + ins.length → p j s → p (j + 1) (step s i)) :
    ∀ c ∈ trace step s ins, ∃ j, k ≤ j ∧ j < k + ins.length ∧ p j c.1 ∧ c.2 ∈ ins := by
  induction ins generalizing s k with
  | nil => intro c hc; cases hc
  | cons i ins ih =>
    have hlen : k + (i :: ins).length = k + 1 + ins.length := by
      rw [List.length_cons]
      omega
    intro c hc
    rw [trace, List.mem_cons] at hc
    rcases hc with rfl | hc
    · exact ⟨k, Nat.le_refl k, by rw [hlen]; omega, h, by simp⟩
    · have hone : p (k + 1) (step s i) := hstep k i (by simp) s (Nat.le_refl k) (by simp) h
      rw [hlen] at hstep ⊢
      obtain ⟨j, hj, hj', hp, hi⟩ := ih hone (fun j i' hi' s hj =>
        hstep j i' (by simp [hi']) s (Nat.le_of_succ_le hj)) c hc
      exact ⟨j, by omega, hj', hp, by simp [hi]⟩

/-- What a run shows, cycle by cycle, under a counted invariant that
fixes it. -/
theorem filterMap_trace_counted {p : ℕ → σ → Prop} {k : ℕ} {out : σ × ι → Option ω}
    {shown : ℕ → Option ω} (h : p k s)
    (hstep : ∀ j, ∀ i ∈ ins, ∀ s, k ≤ j → j < k + ins.length → p j s → p (j + 1) (step s i))
    (hout : ∀ j, ∀ i ∈ ins, ∀ s, k ≤ j → j < k + ins.length → p j s → out (s, i) = shown j) :
    (trace step s ins).filterMap out = (List.range' k ins.length).filterMap shown := by
  induction ins generalizing s k with
  | nil => rfl
  | cons i ins ih =>
    have hlen : k + (i :: ins).length = k + 1 + ins.length := by
      rw [List.length_cons]
      omega
    have hone : p (k + 1) (step s i) := hstep k i (by simp) s (Nat.le_refl k) (by simp) h
    have hnow : out (s, i) = shown k := hout k i (by simp) s (Nat.le_refl k) (by simp) h
    rw [hlen] at hstep hout
    have hrest := ih hone
      (fun j i' hi' s hj => hstep j i' (by simp [hi']) s (Nat.le_of_succ_le hj))
      fun j i' hi' s hj => hout j i' (by simp [hi']) s (Nat.le_of_succ_le hj)
    rw [trace, List.length_cons, List.range'_succ, List.filterMap_cons, List.filterMap_cons, hnow,
      hrest]

/-- What the first cycle of a run shows, and the rest. -/
theorem filterMap_trace_cons {i : ι} (out : σ × ι → Option ω) :
    (trace step s (i :: ins)).filterMap out =
      (out (s, i)).toList ++ (trace step (step s i) ins).filterMap out := by
  rw [trace, List.filterMap_cons]
  cases out (s, i) <;> rfl

/-- A delay of one cycle: what a cycle shows was shown another way in the
cycle before it. -/
theorem filterMap_trace_delay {p : σ → Prop} {q : σ × ι → Prop} {out shown : σ × ι → Option ω}
    (h : p s) (hstep : ∀ s i, q (s, i) → p s → p (step s i))
    (hdelay : ∀ s i i', q (s, i) → p s → out (step s i, i') = shown (s, i))
    (hq : ∀ c ∈ trace step s ins, q c) (hfirst : ∀ i, out (s, i) = none) (last : ι) :
    (trace step s (ins ++ [last])).filterMap out = (trace step s ins).filterMap shown := by
  have hrest : (trace step s (ins ++ [last])).tail.filterMap out =
      (trace step s ins).filterMap shown := by
    clear hfirst
    induction ins generalizing s with
    | nil => rfl
    | cons i ins ih =>
      obtain ⟨hnow, hthen⟩ := List.forall_mem_cons.1 hq
      have hhead : ∃ i' rest, trace step (step s i) (ins ++ [last]) = (step s i, i') :: rest := by
        cases ins with
        | nil => exact ⟨_, _, rfl⟩
        | cons i' ins => exact ⟨_, _, rfl⟩
      obtain ⟨i', rest, heq⟩ := hhead
      have htail := ih (hstep s i hnow h) hthen
      rw [heq, List.tail_cons] at htail
      rw [List.cons_append, trace, List.tail_cons, heq, trace, List.filterMap_cons,
        List.filterMap_cons, hdelay s i i' hnow h, htail]
  rw [← hrest]
  cases ins with
  | nil => simp [trace, hfirst]
  | cons i ins => simp [trace, hfirst]

/-! ## Cycles without end -/

section Forever

variable {c : ℕ → ι} {p : σ → Prop} {m M M' : ℕ}

/-- The first cycles of a sequence without end. -/
def upTo (c : ℕ → ι) (m : ℕ) : List ι := (List.range m).map c

theorem upTo_succ : upTo c (m + 1) = upTo c m ++ [c m] := by
  rw [upTo, List.range_succ, List.map_append, List.map_singleton, upTo]

/-- The first cycles, and those behind them. -/
theorem upTo_add (m d : ℕ) : upTo c (m + d) = upTo c m ++ upTo (fun i => c (m + i)) d := by
  rw [upTo, List.range_add, List.map_append, List.map_map]
  rfl

theorem map_upTo {ω : Type} (f : ι → ω) : (upTo c m).map f = upTo (fun i => f (c i)) m :=
  List.map_map

/-- Cycles that are a list, and others behind it. -/
theorem upTo_getD (l : List ι) (i : ι) : upTo (fun m => l.getD m i) l.length = l := by
  refine List.ext_getElem (by simp [upTo]) fun m hm hm' => ?_
  simp only [upTo, List.getElem_map, List.getElem_range]
  exact List.getD_eq_getElem _ _ hm'

theorem run_upTo_succ : run step s (upTo c (m + 1)) = step (run step s (upTo c m)) (c m) := by
  rw [upTo_succ, run_append, run_cons, run_nil]

theorem trace_upTo_succ : trace step s (upTo c (m + 1)) =
    trace step s (upTo c m) ++ [(run step s (upTo c m), c m)] := by
  rw [upTo_succ, trace_append]
  rfl

/-- What one more cycle of a run shows. -/
theorem filterMap_trace_upTo_succ (out : σ × ι → Option ω) :
    (trace step s (upTo c (m + 1))).filterMap out =
      (trace step s (upTo c m)).filterMap out ++ (out (run step s (upTo c m), c m)).toList := by
  rw [trace_upTo_succ, List.filterMap_append, List.filterMap_cons]
  cases out (run step s (upTo c m), c m) <;> rfl

/-- A counted invariant of a sequence of cycles, from some cycle on. -/
theorem run_upTo_counted {p : ℕ → σ → Prop} {k : ℕ} (h : p k (run step s (upTo c k)))
    (hstep : ∀ j s, k ≤ j → j < m → p j s → p (j + 1) (step s (c j))) (hkm : k ≤ m) :
    p m (run step s (upTo c m)) := by
  induction m, hkm using Nat.le_induction with
  | base => exact h
  | succ m hkm ih =>
    rw [run_upTo_succ]
    exact hstep m _ hkm (Nat.lt_succ_self m)
      (ih fun j s hj hjm => hstep j s hj (Nat.lt_succ_of_lt hjm))

/-- **The first return** of a machine to some states. -/
structure FirstReturn (p : σ → Prop) (step : σ → ι → σ) (s : σ) (c : ℕ → ι) (M : ℕ) : Prop where
  pos : 0 < M
  busy : ∀ m, 0 < m → m < M → ¬ p (run step s (upTo c m))
  back : p (run step s (upTo c M))

theorem FirstReturn.unique (h : FirstReturn p step s c M) (h' : FirstReturn p step s c M') :
    M = M' := by
  rcases Nat.lt_trichotomy M M' with hlt | heq | hlt
  · exact absurd h.back (h'.busy M h.pos hlt)
  · exact heq
  · exact absurd h'.back (h.busy M' h'.pos hlt)

/-- A machine that comes back comes back for the first time. -/
theorem exists_firstReturn (hm : 0 < m) (h : p (run step s (upTo c m))) :
    ∃ M ≤ m, FirstReturn p step s c M := by
  classical
  have hex : ∃ k, 0 < k ∧ p (run step s (upTo c k)) := ⟨m, hm, h⟩
  refine ⟨Nat.find hex, Nat.find_min' hex ⟨hm, h⟩, (Nat.find_spec hex).1, ?_, (Nat.find_spec hex).2⟩
  intro k hk hlt hback
  exact Nat.find_min hex hlt ⟨hk, hback⟩

/-- What grows again and again as long as it is below a bound reaches it. -/
theorem exists_bound_le {f : ℕ → ℕ} {n : ℕ}
    (h : ∀ k, m ≤ k → f k < n → ∃ k', k ≤ k' ∧ f k < f k') : ∃ k, m ≤ k ∧ n ≤ f k := by
  by_contra hnever
  push Not at hnever
  -- otherwise it would pass every number
  have hpass : ∀ j, ∃ k, m ≤ k ∧ j ≤ f k := by
    intro j
    induction j with
    | zero => exact ⟨m, Nat.le_refl m, Nat.zero_le _⟩
    | succ j ih =>
      obtain ⟨k, hk, hj⟩ := ih
      obtain ⟨k', hk', hlt⟩ := h k hk (hnever k hk)
      exact ⟨k', Nat.le_trans hk hk', Nat.lt_of_le_of_lt hj hlt⟩
  obtain ⟨k, hk, hn⟩ := hpass n
  exact absurd (hnever k hk) (Nat.not_lt.2 hn)

end Forever

/-- Something shown in a window of the cycles only. -/
theorem filterMap_window {α : Type} {lo len a n : ℕ} (g : ℕ → α) (hlo : lo ≤ a)
    (hhi : a + n ≤ lo + len) :
    (List.range' lo len).filterMap (fun m => if a ≤ m ∧ m < a + n then some (g m) else none) =
      (List.range' a n).map g := by
  have hsplit : List.range' lo len =
      List.range' lo (a - lo) ++ (List.range' a n ++ List.range' (a + n) (lo + len - (a + n))) := by
    have h₁ := List.range'_append_1 (s := a) (m := n) (n := lo + len - (a + n))
    have h₂ := List.range'_append_1 (s := lo) (m := a - lo) (n := n + (lo + len - (a + n)))
    rw [show lo + (a - lo) = a by omega] at h₂
    rw [h₁, h₂]
    congr 1
    omega
  have hnone : ∀ l : List ℕ, (∀ m ∈ l, ¬ (a ≤ m ∧ m < a + n)) →
      l.filterMap (fun m => if a ≤ m ∧ m < a + n then some (g m) else none) = [] := by
    intro l hl
    rw [List.filterMap_eq_nil_iff]
    exact fun m hm => if_neg (hl m hm)
  have hsome : (List.range' a n).filterMap
      (fun m => if a ≤ m ∧ m < a + n then some (g m) else none) = (List.range' a n).map g := by
    rw [← List.filterMap_eq_map]
    refine List.filterMap_congr fun m hm => ?_
    rw [List.mem_range'_1] at hm
    exact if_pos hm
  rw [hsplit, List.filterMap_append, List.filterMap_append, hsome, hnone, hnone, List.nil_append,
    List.append_nil]
  · intro m hm
    rw [List.mem_range'_1] at hm
    omega
  · intro m hm
    rw [List.mem_range'_1] at hm
    omega

end Clocked

end WrCalibration
