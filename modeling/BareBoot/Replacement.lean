import Mathlib.Data.List.Infix
import Mathlib.Tactic.Ring

/-! Replacing the occurrences of a word in a text, from left to right and without overlaps. -/

namespace BareBoot.Replacement

variable {α : Type*} [DecidableEq α]

section Definitions

variable (find replace : List α)

/-- The text with each occurrence replaced; the next `skip` letters belong to the last one. -/
def replaceFrom : Nat → List α → List α
  | _, [] => []
  | skip + 1, _ :: text => replaceFrom skip text
  | 0, a :: text =>
      if find <+: a :: text then replace ++ replaceFrom (find.length - 1) text else a :: replaceFrom 0 text

/-- Where the occurrences replaced stand in a text that starts at the position given. -/
def takenFrom : Nat → Nat → List α → List Nat
  | _, _, [] => []
  | skip + 1, at', _ :: text => takenFrom skip (at' + 1) text
  | 0, at', a :: text =>
      if find <+: a :: text then at' :: takenFrom (find.length - 1) (at' + 1) text else takenFrom 0 (at' + 1) text

/-- An empty word has no occurrence to replace. -/
def replaceAll (text : List α) : List α := if find = [] then text else replaceFrom find replace 0 text

end Definitions

variable {find replace text : List α}

theorem replaceFrom_skip (skip : Nat) :
    replaceFrom find replace skip text = replaceFrom find replace 0 (text.drop skip) := by
  induction text generalizing skip with
  | nil =>
      rw [List.drop_nil]
      cases skip <;> rfl
  | cons a text ih =>
      cases skip with
      | zero => rfl
      | succ skip => rw [replaceFrom, ih, List.drop_succ_cons]

theorem takenFrom_skip (skip at' : Nat) :
    takenFrom find skip at' text = takenFrom find 0 (at' + skip) (text.drop skip) := by
  induction text generalizing skip at' with
  | nil =>
      rw [List.drop_nil]
      cases skip <;> rfl
  | cons a text ih =>
      cases skip with
      | zero => rfl
      | succ skip => rw [takenFrom, ih, List.drop_succ_cons, Nat.add_assoc, Nat.add_comm 1]

theorem replaceFrom_match (hpos : 0 < find.length) (h : find <+: text) :
    replaceFrom find replace 0 text = replace ++ replaceFrom find replace 0 (text.drop find.length) := by
  cases text with
  | nil => exact absurd (List.prefix_nil.mp h) (List.ne_nil_of_length_pos hpos)
  | cons a text =>
      obtain ⟨n, hn⟩ : ∃ n, find.length = n + 1 := ⟨find.length - 1, by omega⟩
      rw [replaceFrom, if_pos h, replaceFrom_skip, hn, List.drop_succ_cons, Nat.add_sub_cancel]

theorem takenFrom_match {at' : Nat} (hpos : 0 < find.length) (h : find <+: text) :
    takenFrom find 0 at' text = at' :: takenFrom find 0 (at' + find.length) (text.drop find.length) := by
  cases text with
  | nil => exact absurd (List.prefix_nil.mp h) (List.ne_nil_of_length_pos hpos)
  | cons a text =>
      obtain ⟨n, hn⟩ : ∃ n, find.length = n + 1 := ⟨find.length - 1, by omega⟩
      rw [takenFrom, if_pos h, takenFrom_skip, hn, List.drop_succ_cons, Nat.add_sub_cancel, Nat.add_assoc,
        Nat.add_comm 1]

/-- Letters in front of which no occurrence starts stay. -/
theorem replaceFrom_before {n : Nat} (h : ∀ j < n, ¬ find <+: text.drop j) :
    replaceFrom find replace 0 text = text.take n ++ replaceFrom find replace 0 (text.drop n) := by
  induction n generalizing text with
  | zero => rfl
  | succ n ih =>
      cases text with
      | nil => rfl
      | cons a text =>
          rw [replaceFrom, if_neg (show ¬ find <+: a :: text from h 0 n.succ_pos), ih fun j hj => h (j + 1) (Nat.succ_lt_succ hj)]
          rfl

theorem takenFrom_before {n at' : Nat} (h : ∀ j < n, ¬ find <+: text.drop j) :
    takenFrom find 0 at' text = takenFrom find 0 (at' + n) (text.drop n) := by
  induction n generalizing text at' with
  | zero => rfl
  | succ n ih =>
      cases text with
      | nil => rfl
      | cons a text =>
          rw [takenFrom, if_neg (show ¬ find <+: a :: text from h 0 n.succ_pos),
            ih fun j hj => h (j + 1) (Nat.succ_lt_succ hj), Nat.add_assoc, Nat.add_comm 1, List.drop_succ_cons]

theorem replaceFrom_none (h : ∀ j < text.length, ¬ find <+: text.drop j) : replaceFrom find replace 0 text = text := by
  rw [replaceFrom_before h, List.take_length, List.drop_length, replaceFrom, List.append_nil]

theorem takenFrom_none {at' : Nat} (h : ∀ j < text.length, ¬ find <+: text.drop j) :
    takenFrom find 0 at' text = [] := by
  rw [takenFrom_before h, List.drop_length, takenFrom]

theorem replaceAll_eq (hpos : 0 < find.length) : replaceAll find replace text = replaceFrom find replace 0 text :=
  if_neg (List.ne_nil_of_length_pos hpos)

/-- A word longer than the text does not occur. -/
theorem replaceAll_short (h : text.length < find.length) : replaceAll find replace text = text := by
  rw [replaceAll_eq (by omega)]
  apply replaceFrom_none
  intro j _ hpre
  have := hpre.length_le
  rw [List.length_drop] at this
  omega

/-- Each occurrence taken changes the length by the difference of the words'. -/
theorem length_replaceFrom (hpos : 0 < find.length) {skip at' : Nat} (hskip : skip ≤ text.length) :
    (replaceFrom find replace skip text).length + (takenFrom find skip at' text).length * find.length + skip =
      text.length + (takenFrom find skip at' text).length * replace.length := by
  induction text generalizing skip at' with
  | nil =>
      rw [Nat.le_zero.mp hskip]
      simp [replaceFrom, takenFrom]
  | cons a text ih =>
      cases skip with
      | succ skip =>
          have := @ih _ (at' + 1) (Nat.le_of_succ_le_succ hskip)
          rw [replaceFrom, takenFrom, List.length_cons]
          omega
      | zero =>
          rw [replaceFrom, takenFrom]
          split_ifs with hpre
          · have hlen := hpre.length_le
            rw [List.length_cons] at hlen
            have := @ih _ (at' + 1) (show find.length - 1 ≤ text.length by omega)
            rw [List.length_append, List.length_cons, List.length_cons, Nat.succ_mul, Nat.succ_mul]
            omega
          · have := @ih _ (at' + 1) (Nat.zero_le text.length)
            rw [List.length_cons, List.length_cons]
            omega

theorem le_of_mem_takenFrom {skip at' x : Nat} (h : x ∈ takenFrom find skip at' text) : at' ≤ x := by
  induction text generalizing skip at' with
  | nil =>
      rw [takenFrom] at h
      cases h
  | cons a text ih =>
      cases skip with
      | succ skip =>
          rw [takenFrom] at h
          exact Nat.le_of_succ_le (ih h)
      | zero =>
          rw [takenFrom] at h
          split_ifs at h
          · rcases List.mem_cons.mp h with rfl | h
            · exact Nat.le_refl x
            · exact Nat.le_of_succ_le (ih h)
          · exact Nat.le_of_succ_le (ih h)

/-- Replacing a word by itself changes nothing. -/
theorem replaceFrom_self (hpos : 0 < find.length) (skip : Nat) :
    replaceFrom find find skip text = text.drop skip := by
  induction text generalizing skip with
  | nil => rw [replaceFrom, List.drop_nil]
  | cons a text ih =>
      cases skip with
      | succ skip => rw [replaceFrom, ih, List.drop_succ_cons]
      | zero =>
          rw [replaceFrom, ih, ih]
          split_ifs with hpre
          · obtain ⟨n, hn⟩ : ∃ n, find.length = n + 1 := ⟨find.length - 1, by omega⟩
            have hwhole := List.prefix_iff_eq_append.mp hpre
            rw [hn, List.drop_succ_cons] at hwhole
            rw [hn, Nat.add_sub_cancel]
            exact hwhole
          · rfl

theorem replaceAll_self : replaceAll find find text = text := by
  unfold replaceAll
  split_ifs with hempty
  · rfl
  · exact replaceFrom_self (List.length_pos_iff.mpr hempty) 0

end BareBoot.Replacement
