import BareBoot.KextSearch

/-! What `SearchAndReplace` does, said of the buffer before it: the matches that a scan from the left
takes, each behind the window of the one before, are overwritten. -/

namespace BareBoot.Kext

open Plist

section Greedy

variable (memory : Memory) (search : Bytes)

/-- The matches among `left` positions from `a` on, behind the next `skip` ones. -/
def greedyFrom : Nat → Nat → Nat → List Nat
  | 0, _, _ => []
  | left + 1, a, 0 =>
      if holds memory a search then a :: greedyFrom left (a + 1) (search.length - 1) else greedyFrom left (a + 1) 0
  | left + 1, a, skip + 1 => greedyFrom left (a + 1) skip

/-- The leftmost matches without overlaps of a buffer. -/
def greedy (source size : Nat) : List Nat := greedyFrom memory search (size + 1 - search.length) source 0

/-- How many of `found` matches are replaced. -/
def capped (maxReplaces : Int) (found : Nat) : Nat := if 0 < maxReplaces then min found maxReplaces.toNat else found

end Greedy

variable {memory after : Memory} {search replace : Bytes}

/-- The windows at the positions given hold the replacement, and every other byte is as before. -/
structure Overwritten (replace : Bytes) (positions : List Nat) (memory after : Memory) : Prop where
  inside : ∀ a ∈ positions, ∀ i < replace.length, after (a + i) = replace.getD i 0
  outside : ∀ x, (∀ a ∈ positions, x < a ∨ a + replace.length ≤ x) → after x = memory x

theorem greedyFrom_skip (left a skip : Nat) :
    greedyFrom memory search left a skip = greedyFrom memory search (left - skip) (a + skip) 0 := by
  induction skip generalizing left a with
  | zero => rfl
  | succ skip ih =>
      cases left with
      | zero =>
          rw [Nat.zero_sub]
          rfl
      | succ left => rw [greedyFrom, ih, Nat.succ_sub_succ, Nat.add_assoc, Nat.add_comm 1]

/-- A match is taken and its window skipped. -/
theorem greedyFrom_match {left a : Nat} (hpos : 0 < search.length) (h : holds memory a search = true) :
    greedyFrom memory search (left + 1) a 0 =
      a :: greedyFrom memory search (left + 1 - search.length) (a + search.length) 0 := by
  rw [greedyFrom, if_pos h, greedyFrom_skip, Nat.add_assoc, Nat.add_sub_cancel' hpos,
    show left - (search.length - 1) = left + 1 - search.length by omega]

theorem greedyFrom_step {left a : Nat} (h : ¬ holds memory a search = true) :
    greedyFrom memory search (left + 1) a 0 = greedyFrom memory search left (a + 1) 0 := by
  rw [greedyFrom, if_neg h]

theorem le_of_mem_greedyFrom {left a skip x : Nat} (h : x ∈ greedyFrom memory search left a skip) : a ≤ x := by
  induction left generalizing a skip with
  | zero => cases h
  | succ left ih =>
      cases skip with
      | zero =>
          rw [greedyFrom] at h
          split_ifs at h
          · rcases List.mem_cons.mp h with rfl | h
            · exact Nat.le_refl _
            · exact Nat.le_of_succ_le (ih h)
          · exact Nat.le_of_succ_le (ih h)
      | succ skip =>
          rw [greedyFrom] at h
          exact Nat.le_of_succ_le (ih h)

theorem greedyFrom_congr {memory' : Memory} {left a skip : Nat} (h : ∀ x, a ≤ x → memory' x = memory x) :
    greedyFrom memory' search left a skip = greedyFrom memory search left a skip := by
  induction left generalizing a skip with
  | zero => rfl
  | succ left ih =>
      have hrest : ∀ x, a + 1 ≤ x → memory' x = memory x := fun x hx => h x (by omega)
      cases skip with
      | zero =>
          have hhead : holds memory' a search = holds memory a search := holds_congr fun i _ => h (a + i) (by omega)
          rw [greedyFrom, greedyFrom, hhead, ih hrest, ih hrest]
      | succ skip => rw [greedyFrom, greedyFrom, ih hrest]

/-- One window more, in front of the others. -/
theorem Overwritten.cons {a : Nat} {positions : List Nat}
    (h : Overwritten replace positions (store memory a replace) after)
    (hbehind : ∀ x ∈ positions, a + replace.length ≤ x) : Overwritten replace (a :: positions) memory after where
  inside := by
    intro x hx i hi
    rcases List.mem_cons.mp hx with rfl | hx
    · rw [h.outside (x + i) (fun y hy => Or.inl (by have := hbehind y hy; omega)), store_inside hi]
    · exact h.inside x hx i hi
  outside := by
    intro x hx
    rw [List.forall_mem_cons] at hx
    rw [h.outside x hx.2, store_outside hx.1]

/-- How many of `found` matches a loop with this countdown replaces. -/
def remaining (noReplacesRestriction : Bool) (maxReplaces : Int) (found : Nat) : Nat :=
  if noReplacesRestriction then found else min found maxReplaces.toNat

/-- The windows taken lie behind the source, so that the rest of the scan sees the buffer as it was. -/
theorem replaceFrom_spec (hpos : 0 < search.length) (hsame : replace.length = search.length) (free : Bool)
    (last rounds source : Nat) (maxReplaces : Int) (num : Nat) (memory : Memory) (hrounds : last - source < rounds) :
    ∃ after, replaceFrom search replace free last rounds source maxReplaces num memory =
        some (after, num + remaining free maxReplaces (greedyFrom memory search (last - source) source 0).length) ∧
      Overwritten replace ((greedyFrom memory search (last - source) source 0).take
        (remaining free maxReplaces (greedyFrom memory search (last - source) source 0).length)) memory after := by
  induction rounds generalizing source maxReplaces num memory with
  | zero => omega
  | succ rounds ih =>
      rw [replaceFrom]
      by_cases hgo : source < last ∧ (free = true ∨ 0 < maxReplaces)
      · obtain ⟨hin, hmore⟩ := hgo
        obtain ⟨left, hleft⟩ : ∃ left, last - source = left + 1 := ⟨last - source - 1, by omega⟩
        rw [if_pos ⟨hin, hmore⟩, hleft]
        by_cases hfound : holds memory source search = true
        · have hlater : ∀ x, source + search.length ≤ x → store memory source replace x = memory x :=
            fun x hx => store_outside (by omega)
          obtain ⟨after, hrun, hwritten⟩ := ih (source + search.length) (maxReplaces - 1) (num + 1)
            (store memory source replace) (by omega)
          have hrest : last - (source + search.length) = left + 1 - search.length := by omega
          rw [greedyFrom_congr hlater, hrest] at hrun hwritten
          have hcount : ∀ found, remaining free maxReplaces (found + 1) = remaining free (maxReplaces - 1) found + 1 := by
            intro found
            unfold remaining
            split_ifs with hfree
            · rfl
            · rw [or_iff_right hfree] at hmore
              omega
          rw [if_pos hfound, greedyFrom_match hpos hfound, List.length_cons, hcount, List.take_succ_cons]
          refine ⟨after, ?_, hwritten.cons ?_⟩
          · rw [hrun, Nat.add_right_comm, Nat.add_assoc num]
          · intro x hx
            rw [hsame]
            exact le_of_mem_greedyFrom (List.mem_of_mem_take hx)
        · obtain ⟨after, hrun, hwritten⟩ := ih (source + 1) maxReplaces num memory (by omega)
          have hrest : last - (source + 1) = left := by omega
          rw [hrest] at hrun hwritten
          rw [if_neg hfound, greedyFrom_step hfound]
          exact ⟨after, hrun, hwritten⟩
      · rw [if_neg hgo]
        have hnone : remaining free maxReplaces (greedyFrom memory search (last - source) source 0).length = 0 := by
          by_cases hin : source < last
          · rw [not_and_or, not_or] at hgo
            obtain ⟨hfree, hmax⟩ := hgo.resolve_left (not_not.mpr hin)
            rw [remaining, if_neg hfree]
            omega
          · rw [Nat.sub_eq_zero_of_le (by omega)]
            unfold remaining
            split_ifs
            · rfl
            · exact Nat.zero_min _
        rw [hnone]
        exact ⟨memory, rfl, fun a h => absurd h List.not_mem_nil, fun _ _ => rfl⟩

theorem countFrom_spec (hpos : 0 < search.length) (last rounds source num : Nat) (hrounds : last - source < rounds) :
    countFrom memory search last rounds source num =
      some (num + (greedyFrom memory search (last - source) source 0).length) := by
  induction rounds generalizing source num with
  | zero => omega
  | succ rounds ih =>
      rw [countFrom]
      by_cases hin : source < last
      · obtain ⟨left, hleft⟩ : ∃ left, last - source = left + 1 := ⟨last - source - 1, by omega⟩
        rw [if_pos hin, hleft]
        by_cases hfound : holds memory source search = true
        · rw [if_pos hfound, greedyFrom_match hpos hfound, ih (source + search.length) (num + 1) (by omega),
            List.length_cons, show last - (source + search.length) = left + 1 - search.length by omega,
            Nat.add_right_comm, Nat.add_assoc num]
        · rw [if_neg hfound, greedyFrom_step hfound, ih (source + 1) num (by omega),
            show last - (source + 1) = left by omega]
      · rw [if_neg hin, Nat.sub_eq_zero_of_le (by omega)]
        rfl

theorem remaining_eq (maxReplaces : Int) (found : Nat) :
    remaining (decide (maxReplaces ≤ 0)) maxReplaces found = capped maxReplaces found := by
  unfold remaining capped
  simp only [decide_eq_true_eq]
  split_ifs
  · omega
  · rfl
  · rfl
  · omega

theorem searchAndReplace_spec (hpos : 0 < search.length) (hsame : replace.length = search.length) (source size : Nat)
    (maxReplaces : Int) (memory : Memory) :
    ∃ after, searchAndReplace memory source size search replace maxReplaces =
        some (after, capped maxReplaces (greedy memory search source size).length) ∧
      Overwritten replace ((greedy memory search source size).take
        (capped maxReplaces (greedy memory search source size).length)) memory after := by
  obtain ⟨after, hrun, hwritten⟩ := replaceFrom_spec hpos hsame (decide (maxReplaces ≤ 0))
    (source + (size + 1 - search.length)) (size + 2) source maxReplaces 0 memory (by omega)
  rw [Nat.add_sub_cancel_left, remaining_eq, Nat.zero_add] at hrun
  rw [Nat.add_sub_cancel_left, remaining_eq] at hwritten
  exact ⟨after, hrun, hwritten⟩

theorem searchAndCount_eq (hpos : 0 < search.length) (source size : Nat) :
    searchAndCount memory source size search = some (greedy memory search source size).length := by
  rw [searchAndCount, countFrom_spec hpos _ _ _ _ (by omega), Nat.zero_add, Nat.add_sub_cancel_left]
  rfl

/-- The matches taken lie in the buffer. -/
theorem greedyFrom_lt {left a skip x : Nat} (h : x ∈ greedyFrom memory search left a skip) :
    x < a + left ∧ holds memory x search = true := by
  induction left generalizing a skip with
  | zero => cases h
  | succ left ih =>
      cases skip with
      | zero =>
          rw [greedyFrom] at h
          split_ifs at h with hfound
          · rcases List.mem_cons.mp h with rfl | h
            · exact ⟨by omega, hfound⟩
            · obtain ⟨hlt, hmatch⟩ := ih h
              exact ⟨by omega, hmatch⟩
          · obtain ⟨hlt, hmatch⟩ := ih h
            exact ⟨by omega, hmatch⟩
      | succ skip =>
          rw [greedyFrom] at h
          obtain ⟨hlt, hmatch⟩ := ih h
          exact ⟨by omega, hmatch⟩

/-- Only the range searched is written. -/
theorem searchAndReplace_frame (hpos : 0 < search.length) (hsame : replace.length = search.length) (source size : Nat)
    (maxReplaces : Int) (memory : Memory) :
    ∃ run, searchAndReplace memory source size search replace maxReplaces = some run ∧
      ∀ x, (x < source ∨ source + size ≤ x) → run.1 x = memory x := by
  obtain ⟨after, hrun, hwritten⟩ := searchAndReplace_spec hpos hsame source size maxReplaces memory
  refine ⟨_, hrun, ?_⟩
  intro x hx
  apply hwritten.outside
  intro a ha
  have hmem := List.mem_of_mem_take ha
  have hle := le_of_mem_greedyFrom hmem
  have hlt := (greedyFrom_lt hmem).1
  omega

/-- The first matches, as many as the cap lets through, are replaced and nothing else, and without a cap the count
is that of `SearchAndCount`. -/
theorem searchAndReplace_greedy (hpos : 0 < search.length) (hsame : replace.length = search.length) (source size : Nat)
    (maxReplaces : Int) (memory : Memory) :
    ∃ after k, searchAndReplace memory source size search replace maxReplaces = some (after, k) ∧
      k = capped maxReplaces (greedy memory search source size).length ∧
      Overwritten replace ((greedy memory search source size).take k) memory after ∧
      (maxReplaces ≤ 0 → searchAndCount memory source size search = some k) := by
  obtain ⟨after, hrun, hwritten⟩ := searchAndReplace_spec hpos hsame source size maxReplaces memory
  refine ⟨after, _, hrun, rfl, hwritten, ?_⟩
  intro hfree
  rw [searchAndCount_eq hpos, capped, if_neg (by omega)]

/-- `aaaaa` from 16 on. -/
def fiveLetters : Memory := fun x => if x < 21 then 97 else 0

theorem fiveLetters_greedy :
    ∃ after k, searchAndReplace fiveLetters 16 5 [97, 97] [98, 99] (-1) = some (after, k) ∧
      k = capped (-1) (greedy fiveLetters [97, 97] 16 5).length ∧
      Overwritten [98, 99] ((greedy fiveLetters [97, 97] 16 5).take k) fiveLetters after ∧
      ((-1 : Int) ≤ 0 → searchAndCount fiveLetters 16 5 [97, 97] = some k) := by
  have hpos : 0 < ([97, 97] : Bytes).length := Nat.succ_pos 1
  have hsame : ([98, 99] : Bytes).length = ([97, 97] : Bytes).length := rfl
  exact searchAndReplace_greedy hpos hsame 16 5 (-1) fiveLetters

example : greedy fiveLetters [97, 97] 16 5 = [16, 18] := by decide

end BareBoot.Kext
