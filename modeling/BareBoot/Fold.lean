import Mathlib.Data.List.Basic

/-! Folds of a step, also one that can fail: what every step keeps, where every step succeeds, and where one of them
fails. -/

namespace BareBoot.Fold

/-! ### Steps that cannot fail -/

theorem foldl_range {σ : Type} {P : Nat → σ → Prop} {f : σ → Nat → σ} {s : σ} (h : P 0 s)
    (hstep : ∀ k s, P k s → P (k + 1) (f s k)) (n : Nat) : P n ((List.range n).foldl f s) := by
  induction n with
  | zero => exact h
  | succ n ih =>
      rw [List.range_succ, List.foldl_append]
      exact hstep n _ ih

/-! ### Steps into `Option` -/

section Option

variable {α σ : Type} {P : σ → Prop} {step : σ → α → Option σ} {l : List α} {s : σ}

/-- What each step of a fold keeps, the fold keeps. -/
theorem foldlM_keeps (hstep : ∀ a ∈ l, ∀ s after, P s → step s a = some after → P after) (h : P s) {after : σ}
    (hrun : l.foldlM step s = some after) : P after := by
  induction l generalizing s with
  | nil =>
      cases hrun
      exact h
  | cons a l ih =>
      rw [List.forall_mem_cons] at hstep
      rw [List.foldlM_cons, Option.bind_eq_bind, Option.bind_eq_some_iff] at hrun
      obtain ⟨next, hnext, hrest⟩ := hrun
      exact ih hstep.2 (hstep.1 s next h hnext) hrest

theorem foldlM_some (hstep : ∀ a ∈ l, ∀ s, P s → ∃ s', step s a = some s' ∧ P s') (h : P s) :
    ∃ s', l.foldlM step s = some s' ∧ P s' := by
  induction l generalizing s with
  | nil => exact ⟨s, rfl, h⟩
  | cons a l ih =>
      rw [List.forall_mem_cons] at hstep
      obtain ⟨between, hhead, hbetween⟩ := hstep.1 s h
      obtain ⟨after, hrun, hafter⟩ := ih hstep.2 hbetween
      exact ⟨after, by rw [List.foldlM_cons, hhead, Option.bind_eq_bind, Option.bind_some, hrun], hafter⟩

theorem foldlM_none (hkeep : ∀ a ∈ l, ∀ s s', P s → step s a = some s' → P s') {a : α} (ha : a ∈ l)
    (hfail : ∀ s, P s → step s a = none) (h : P s) : l.foldlM step s = none := by
  induction l generalizing s with
  | nil => cases ha
  | cons b l ih =>
      rw [List.forall_mem_cons] at hkeep
      rw [List.foldlM_cons, Option.bind_eq_bind]
      cases hhead : step s b with
      | none => rfl
      | some between =>
          rcases List.mem_cons.mp ha with rfl | ha
          · rw [hfail s h] at hhead
            cases hhead
          · rw [Option.bind_some]
            exact ih hkeep.2 ha (hkeep.1 s between h hhead)

end Option

/-! ### Steps into `Except` -/

section Except

variable {α β ε : Type} {l : List α}

/-- A fold over subscripts is the fold over what stands at them. -/
theorem foldlM_range {g : β → Nat → Except ε β} {h : β → α → Except ε β}
    (heq : ∀ i (hi : i < l.length) b, g b i = h b l[i]) (b : β) :
    (List.range l.length).foldlM g b = l.foldlM h b := by
  induction l generalizing g b with
  | nil => rfl
  | cons a l ih =>
      have hhead := heq 0 (Nat.succ_pos _) b
      have htail : ∀ i (hi : i < l.length) b, g b (i + 1) = h b l[i] := fun i hi b => heq (i + 1) (Nat.succ_lt_succ hi) b
      rw [List.length_cons, List.range_succ_eq_map, List.foldlM_cons, List.foldlM_cons, hhead]
      apply bind_congr
      intro b'
      rw [List.foldlM_map]
      exact ih htail b'

/-- One step that fails from every state makes the whole fold fail. -/
theorem foldlM_error {g : β → α → Except ε β} {a : α} (ha : a ∈ l)
    (hfail : ∀ b, ∃ e, g b a = .error e) (b : β) : ∃ e, l.foldlM g b = .error e := by
  induction l generalizing b with
  | nil => cases ha
  | cons c l ih =>
      rw [List.foldlM_cons]
      rcases List.mem_cons.1 ha with rfl | ha
      · obtain ⟨e, he⟩ := hfail b
        rw [he]
        exact ⟨e, rfl⟩
      · cases hstep : g b c with
        | error e => exact ⟨e, rfl⟩
        | ok b' => exact ih ha b'

end Except

end BareBoot.Fold
