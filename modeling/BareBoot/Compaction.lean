import Mathlib.Data.List.Range
import Mathlib.Data.List.Pairwise

/-! Removal from an array in place: the entries behind a removed one move down by one, and the scan goes
on at the same position. What the first entries are afterwards is a filter of what they were. -/

namespace BareBoot

variable {α : Type*}

/-- The `count` entries from `start` on. -/
def segment (cell : Nat → α) (start count : Nat) : List α := (List.range count).map fun i => cell (start + i)

@[simp] theorem segment_zero (cell : Nat → α) (start : Nat) : segment cell start 0 = [] := rfl

theorem segment_succ (cell : Nat → α) (start count : Nat) :
    segment cell start (count + 1) = cell start :: segment cell (start + 1) count := by
  unfold segment
  rw [List.range_succ_eq_map, List.map_cons, List.map_map, Nat.add_zero]
  congr 1
  apply List.map_congr_left
  intro i _
  exact congrArg cell (by omega)

theorem segment_succ_last (cell : Nat → α) (start count : Nat) :
    segment cell start (count + 1) = segment cell start count ++ [cell (start + count)] := by
  unfold segment
  rw [List.range_succ, List.map_append, List.map_singleton]

@[simp] theorem length_segment (cell : Nat → α) (start count : Nat) : (segment cell start count).length = count := by
  unfold segment
  rw [List.length_map, List.length_range]

theorem segment_congr {f g : Nat → α} {start count : Nat} (h : ∀ i < count, f (start + i) = g (start + i)) :
    segment f start count = segment g start count := by
  apply List.map_congr_left
  intro i hi
  exact h i (List.mem_range.mp hi)

/-- The same entries at two places. -/
theorem segment_eq_iff {f g : Nat → α} {start start' count : Nat} :
    segment f start' count = segment g start count ↔ ∀ i < count, f (start' + i) = g (start + i) := by
  unfold segment
  rw [List.map_inj_left]
  exact forall_congr' fun i => by rw [List.mem_range]

theorem segment_add (cell : Nat → α) (start count more : Nat) :
    segment cell start (count + more) = segment cell start count ++ segment cell (start + count) more := by
  unfold segment
  rw [List.range_add, List.map_append, List.map_map]
  congr 1
  apply List.map_congr_left
  intro i _
  rw [Function.comp_apply, Nat.add_assoc]

theorem segment_split (cell : Nat → α) (start : Nat) {count total : Nat} (h : count ≤ total) :
    segment cell start total = segment cell start count ++ segment cell (start + count) (total - count) := by
  rw [← segment_add, Nat.add_sub_cancel' h]

theorem drop_segment (cell : Nat → α) (start count total : Nat) :
    (segment cell start total).drop count = segment cell (start + count) (total - count) := by
  rcases Nat.le_total count total with h | h
  · rw [segment_split cell start h, List.drop_left' (length_segment cell start count)]
  · rw [Nat.sub_eq_zero_of_le h, List.drop_eq_nil_of_le (by rw [length_segment]; exact h), segment_zero]

theorem take_segment (cell : Nat → α) (start : Nat) {count total : Nat} (h : count ≤ total) :
    (segment cell start total).take count = segment cell start count := by
  unfold segment
  rw [← List.map_take, List.take_range, Nat.min_eq_left h]

/-! ### Closing gaps -/

/-- Each of `count` entries from `start` on takes the value of its successor. -/
def closeGap (cell : Nat → α) (start count : Nat) : Nat → α := fun i =>
  if start ≤ i ∧ i < start + count then cell (i + 1) else cell i

/-- Scan `count` entries from `start` on; one that is not kept is overwritten by those behind it. -/
def sweep (keep : α → Bool) : Nat → Nat → (Nat → α) → Nat → α
  | 0, _, cell => cell
  | count + 1, start, cell =>
      if keep (cell start) then sweep keep count (start + 1) cell
      else sweep keep count start (closeGap cell start (count + 1))

theorem segment_closeGap (cell : Nat → α) (start count : Nat) :
    segment (closeGap cell start (count + 1)) start count = segment cell (start + 1) count := by
  apply List.map_congr_left
  intro i hi
  rw [List.mem_range] at hi
  rw [closeGap, if_pos ⟨by omega, by omega⟩]
  exact congrArg cell (by omega)

theorem sweep_before {keep : α → Bool} {count start i : Nat} {cell : Nat → α} (h : i < start) :
    sweep keep count start cell i = cell i := by
  induction count generalizing start cell with
  | zero => rfl
  | succ count ih =>
      rw [sweep]
      split_ifs with hkeep
      · exact ih (Nat.lt_succ_of_lt h)
      · rw [ih h, closeGap, if_neg (by omega)]

theorem segment_sweep (keep : α → Bool) (count start : Nat) (cell : Nat → α) :
    segment (sweep keep count start cell) start ((segment cell start count).filter keep).length =
      (segment cell start count).filter keep := by
  induction count generalizing start cell with
  | zero => rfl
  | succ count ih =>
      rw [sweep, segment_succ]
      by_cases hkeep : keep (cell start) = true
      · rw [if_pos hkeep, List.filter_cons_of_pos hkeep, List.length_cons, segment_succ, ih,
          sweep_before (Nat.lt_succ_self start)]
      · rw [if_neg hkeep, List.filter_cons_of_neg hkeep, ← segment_closeGap]
        exact ih start _

/-! ### Keeping fewer entries than are left -/

theorem filter_take_eq_iff (p : α → Bool) (l : List α) :
    (l.take (l.filter p).length).filter p = l.filter p ↔ l.Pairwise fun a b => p a = false → p b = false := by
  induction l with
  | nil => simp
  | cons a l ih =>
      rw [List.pairwise_cons]
      by_cases ha : p a = true
      · rw [List.filter_cons_of_pos ha, List.length_cons, List.take_succ_cons, List.filter_cons_of_pos ha,
          List.cons.injEq, ih]
        simp [ha]
      · rw [List.filter_cons_of_neg ha]
        rw [Bool.not_eq_true] at ha
        constructor
        · intro h
          cases hn : (l.filter p).length with
          | zero =>
              have hnil : l.filter p = [] := List.length_eq_zero_iff.mp hn
              rw [List.filter_eq_nil_iff] at hnil
              refine ⟨fun b hb _ => by simpa using hnil b hb, ?_⟩
              apply List.pairwise_of_forall_mem_list
              intro b _ c hc _
              simpa using hnil c hc
          | succ n =>
              have hshort : ((l.take n).filter p).length ≤ n :=
                (List.length_filter_le _ _).trans (List.length_take_le _ _)
              rw [hn, List.take_succ_cons, List.filter_cons_of_neg (by simp [ha])] at h
              have := congrArg List.length h
              omega
        · rintro ⟨hrest, -⟩
          have hnil : l.filter p = [] := by
            rw [List.filter_eq_nil_iff]
            intro b hb
            simp [hrest b hb ha]
          rw [hnil]
          rfl

end BareBoot
