import Mathlib.Tactic

/-! Tables of reference counts. A table lists keys with a count; it tallies a list of held keys when it
has each of them once, no other, and the count says how often the key is held. Taking one more reference
and giving one back keep this, whichever entry they are about. -/

namespace BareBoot
variable {K : Type} [BEq K] {table table' : List (K × Nat)} {held held' : List K} {k : K} {n : Nat}

structure Tallies (table : List (K × Nat)) (held : List K) : Prop where
  distinct : (table.map Prod.fst).Nodup
  mem : ∀ k, k ∈ table.map Prod.fst ↔ k ∈ held
  counted : ∀ entry ∈ table, entry.2 = held.count entry.1

namespace Tallies

theorem nil : Tallies ([] : List (K × Nat)) [] :=
  ⟨List.nodup_nil, fun _ => Iff.rfl, fun _ h => nomatch h⟩

/-- A table that tallies nothing is empty. -/
theorem eq_nil (h : Tallies table []) : table = [] := by
  rcases table with _ | ⟨entry, table⟩
  · rfl
  · exact absurd ((h.mem entry.1).1 List.mem_cons_self) List.not_mem_nil

theorem perm (h : Tallies table held) (ht : table.Perm table') (hh : held.Perm held') : Tallies table' held' where
  distinct := (ht.map Prod.fst).nodup_iff.1 h.distinct
  mem k := by rw [← (ht.map Prod.fst).mem_iff, h.mem, hh.mem_iff]
  counted entry he := by rw [h.counted entry (ht.mem_iff.2 he), hh.count_eq]

/-- An entry behind the first is about another key. -/
theorem ne_of_mem (h : Tallies ((k, n) :: table) held) {entry : K × Nat} (he : entry ∈ table) : k ≠ entry.1 := by
  intro heq
  have hmem : entry.1 ∈ table.map Prod.fst := List.mem_map_of_mem he
  rw [← heq] at hmem
  exact (List.nodup_cons.1 h.distinct).1 hmem

variable [LawfulBEq K]

/-- The first reference to a key. -/
theorem first (h : Tallies table held) (hk : k ∉ table.map Prod.fst) : Tallies ((k, 1) :: table) (k :: held) := by
  refine ⟨List.nodup_cons.2 ⟨hk, h.distinct⟩, ?_, ?_⟩
  · intro k'
    rw [List.map_cons, List.mem_cons, List.mem_cons, h.mem]
  · intro entry he
    rcases List.mem_cons.1 he with rfl | he
    · have hzero : held.count k = 0 := List.count_eq_zero.2 fun hmem => hk ((h.mem k).2 hmem)
      rw [List.count_cons_self, hzero]
    · have hmem : entry.1 ∈ table.map Prod.fst := List.mem_map_of_mem he
      have hne : k ≠ entry.1 := fun heq => hk (by rwa [heq])
      rw [List.count_cons_of_ne hne, h.counted entry he]

/-- One more reference to a key of the table. -/
theorem again (h : Tallies ((k, n) :: table) held) : Tallies ((k, n + 1) :: table) (k :: held) := by
  have hk : k ∈ held := (h.mem k).1 List.mem_cons_self
  refine ⟨h.distinct, ?_, ?_⟩
  · intro k'
    have hmem : k' ∈ ((k, n + 1) :: table).map Prod.fst ↔ k' ∈ held := h.mem k'
    rw [hmem, List.mem_cons]
    refine ⟨Or.inr, ?_⟩
    rintro (rfl | h')
    · exact hk
    · exact h'
  · intro entry he
    rcases List.mem_cons.1 he with rfl | he
    · have hn : n = held.count k := h.counted (k, n) List.mem_cons_self
      rw [List.count_cons_self, hn]
    · rw [List.count_cons_of_ne (h.ne_of_mem he), h.counted entry (List.mem_cons_of_mem _ he)]

/-- A reference is given back, and others are left. -/
theorem drop (h : Tallies ((k, n) :: table) (k :: held)) (hn : n - 1 ≠ 0) : Tallies ((k, n - 1) :: table) held := by
  have hcount : n = held.count k + 1 := by
    have := h.counted (k, n) List.mem_cons_self
    rwa [List.count_cons_self] at this
  have hk : k ∈ held := List.count_pos_iff.1 (by omega)
  refine ⟨h.distinct, ?_, ?_⟩
  · intro k'
    have hmem : k' ∈ ((k, n - 1) :: table).map Prod.fst ↔ k' ∈ k :: held := h.mem k'
    rw [hmem, List.mem_cons]
    refine ⟨?_, Or.inr⟩
    rintro (rfl | h')
    · exact hk
    · exact h'
  · intro entry he
    rcases List.mem_cons.1 he with rfl | he
    · exact Nat.sub_eq_of_eq_add hcount
    · have := h.counted entry (List.mem_cons_of_mem _ he)
      rwa [List.count_cons_of_ne (h.ne_of_mem he)] at this

/-- The last reference is given back. -/
theorem dropLast (h : Tallies ((k, n) :: table) (k :: held)) (hn : n - 1 = 0) : Tallies table held := by
  have hcount : n = held.count k + 1 := by
    have := h.counted (k, n) List.mem_cons_self
    rwa [List.count_cons_self] at this
  have hk : k ∉ held := List.count_eq_zero.1 (by omega)
  obtain ⟨hnot, hdistinct⟩ := List.nodup_cons.1 h.distinct
  refine ⟨hdistinct, ?_, ?_⟩
  · intro k'
    have hmem := h.mem k'
    rw [List.map_cons, List.mem_cons, List.mem_cons] at hmem
    by_cases hkk : k' = k
    · subst hkk
      exact iff_of_false hnot hk
    · rwa [or_iff_right hkk, or_iff_right hkk] at hmem
  · intro entry he
    have := h.counted entry (List.mem_cons_of_mem _ he)
    rwa [List.count_cons_of_ne (h.ne_of_mem he)] at this

end Tallies
end BareBoot
