import Mathlib.Data.List.Basic

/-!
# Segments of a list

A list cut behind every marked element. A segment is what stands up to
and with a mark; what comes after the last mark is not a segment yet.
-/

namespace WrCalibration

namespace Segments

variable {α : Type} (mark : α → Bool)

/-- The segments of a list, in order. -/
def segments : List α → List (List α)
  | [] => []
  | a :: l => if mark a then [a] :: segments l else (segments l).modifyHead (a :: ·)

/-- **A segment**: a mark at its end and nowhere else. -/
inductive IsSegment : List α → Prop
  | last {a : α} : mark a = true → IsSegment [a]
  | cons {a : α} {p : List α} : mark a = false → IsSegment p → IsSegment (a :: p)

/-- A list of segments only: a mark at its end, if it has one. -/
def Whole (l : List α) : Prop := ∀ a, l.getLast? = some a → mark a = true

variable {mark} {a : α} {l m p : List α}

theorem IsSegment.length_pos (h : IsSegment mark p) : 0 < p.length := by
  cases h with
  | last _ => exact Nat.one_pos
  | cons _ _ => exact Nat.succ_pos _

/-- A segment may begin with any elements that are not marked. -/
theorem IsSegment.append (hp : IsSegment mark p) (h : ∀ b ∈ l, mark b = false) :
    IsSegment mark (l ++ p) := by
  induction l with
  | nil => exact hp
  | cons b l ih =>
    obtain ⟨hb, hl⟩ := List.forall_mem_cons.1 h
    exact .cons hb (ih hl)

/-- The first mark ends a segment. -/
theorem isSegment_concat (h : ∀ b ∈ l, mark b = false) (ha : mark a = true) :
    IsSegment mark (l ++ [a]) := (IsSegment.last ha).append h

theorem whole_nil : Whole mark [] := by
  intro a h
  cases h

theorem whole_concat (h : mark a = true) : Whole mark (l ++ [a]) := by
  intro b hb
  rw [List.getLast?_concat, Option.some.injEq] at hb
  rw [← hb]
  exact h

theorem Whole.tail (h : Whole mark (a :: l)) : Whole mark l := by
  intro b hb
  refine h b ?_
  cases l with
  | nil => cases hb
  | cons c l => rw [List.getLast?_cons_cons, hb]

/-- There are as many segments as marks. -/
theorem length_segments : (segments mark l).length = l.countP mark := by
  induction l with
  | nil => rfl
  | cons a l ih =>
    by_cases h : mark a = true
    · rw [segments, if_pos h, List.length_cons, ih, List.countP_cons_of_pos h]
    · rw [segments, if_neg h, List.length_modifyHead, ih, List.countP_cons_of_neg h]

theorem segments_segment_append (h : IsSegment mark p) :
    segments mark (p ++ m) = p :: segments mark m := by
  induction h with
  | last ha => rw [List.singleton_append, segments, if_pos ha]
  | cons ha _ ih =>
    rw [List.cons_append, segments, ih, if_neg (by rw [ha]; decide), List.modifyHead_cons]

/-- The segments that a list is made of. -/
theorem segments_flatten_append {ps : List (List α)} (h : ∀ p ∈ ps, IsSegment mark p) :
    segments mark (ps.flatten ++ m) = ps ++ segments mark m := by
  induction ps with
  | nil => rfl
  | cons p ps ih =>
    obtain ⟨hp, hps⟩ := List.forall_mem_cons.1 h
    rw [List.flatten_cons, List.append_assoc, segments_segment_append hp, ih hps,
      List.cons_append]

theorem isSegment_of_mem_segments (h : p ∈ segments mark l) : IsSegment mark p := by
  induction l generalizing p with
  | nil => cases h
  | cons a l ih =>
    by_cases ha : mark a = true
    · rw [segments, if_pos ha, List.mem_cons] at h
      rcases h with rfl | h
      · exact .last ha
      · exact ih h
    · rw [segments, if_neg ha] at h
      cases hl : segments mark l with
      | nil =>
        rw [hl] at h
        cases h
      | cons s ss =>
        rw [hl, List.modifyHead_cons, List.mem_cons] at h
        rcases h with rfl | h
        · exact .cons (Bool.eq_false_iff.2 ha) (ih (hl ▸ List.mem_cons_self))
        · exact ih (hl ▸ List.mem_cons_of_mem s h)

theorem length_le_of_mem_segments (h : p ∈ segments mark l) : p.length ≤ l.length := by
  induction l generalizing p with
  | nil => cases h
  | cons a l ih =>
    by_cases ha : mark a = true
    · rw [segments, if_pos ha, List.mem_cons] at h
      rcases h with rfl | h
      · exact Nat.succ_le_succ (Nat.zero_le _)
      · exact Nat.le_succ_of_le (ih h)
    · rw [segments, if_neg ha] at h
      cases hl : segments mark l with
      | nil =>
        rw [hl] at h
        cases h
      | cons s ss =>
        rw [hl, List.modifyHead_cons, List.mem_cons] at h
        rcases h with rfl | h
        · exact Nat.succ_le_succ (ih (hl ▸ List.mem_cons_self))
        · exact Nat.le_succ_of_le (ih (hl ▸ List.mem_cons_of_mem s h))

/-- What comes later leaves the segments that are complete. -/
theorem segments_isPrefix_append : segments mark l <+: segments mark (l ++ m) := by
  induction l with
  | nil => exact List.nil_prefix
  | cons a l ih =>
    rw [List.cons_append]
    by_cases ha : mark a = true
    · rw [segments, segments, if_pos ha, if_pos ha, List.prefix_cons_inj]
      exact ih
    · rw [segments, segments, if_neg ha, if_neg ha]
      obtain ⟨rest, hrest⟩ := ih
      rw [← hrest]
      cases segments mark l with
      | nil => exact List.nil_prefix
      | cons s ss => exact List.prefix_append _ _

/-- **Behind whole segments the next segment begins.** -/
theorem segments_append (h : Whole mark l) :
    segments mark (l ++ m) = segments mark l ++ segments mark m := by
  induction l with
  | nil => rfl
  | cons a l ih =>
    have hrest := ih h.tail
    by_cases ha : mark a = true
    · rw [List.cons_append, segments, segments, if_pos ha, if_pos ha, hrest, List.cons_append]
    · rw [List.cons_append, segments, segments, if_neg ha, if_neg ha, hrest]
      cases hl : segments mark l with
      | cons s ss => rfl
      | nil =>
        -- there is a mark behind an element that is none
        have hcount : (a :: l).countP mark = 0 := by
          rw [List.countP_cons_of_neg ha, ← length_segments, hl]
          rfl
        rw [List.countP_eq_zero] at hcount
        have hmem := List.getLast_mem (List.cons_ne_nil a l)
        exact absurd (h _ (List.getLast?_eq_some_getLast (List.cons_ne_nil a l))) (hcount _ hmem)

/-- A list with a mark begins with a segment. -/
theorem exists_isSegment (h : 0 < l.countP mark) : ∃ p m, IsSegment mark p ∧ l = p ++ m := by
  induction l with
  | nil => exact absurd h (Nat.lt_irrefl 0)
  | cons a l ih =>
    by_cases ha : mark a = true
    · exact ⟨[a], l, .last ha, rfl⟩
    · rw [List.countP_cons_of_neg ha] at h
      obtain ⟨p, m, hp, rfl⟩ := ih h
      exact ⟨a :: p, m, .cons (Bool.eq_false_iff.2 ha) hp, rfl⟩

/-- **The segment at the head** of what comes behind whole segments. -/
theorem getElem?_segments (h : Whole mark l) (hp : IsSegment mark p) :
    (segments mark (l ++ (p ++ m)))[l.countP mark]? = some p := by
  rw [segments_append h, segments_segment_append hp, ← length_segments,
    List.getElem?_append_right (Nat.le_refl _), Nat.sub_self, List.getElem?_cons_zero]

end Segments

end WrCalibration
