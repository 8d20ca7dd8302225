import BareBoot.PlistNumber
import BareBoot.Word
import Mathlib.Data.List.TakeWhile

/-! `SearchMemory` and `SearchAndReplace` of `kext_patcher.c`, over a flat memory. Addresses do not wrap,
and the assertions are not part of a release. -/

namespace BareBoot.Kext

open Plist

abbrev Memory := Nat → UInt8

/-- `CompareMem` finds no difference. -/
def holds (memory : Memory) : Nat → Bytes → Bool
  | _, [] => true
  | a, c :: cs => memory a == c && holds memory (a + 1) cs

def bytesAt (memory : Memory) (a count : Nat) : Bytes := (List.range count).map fun i => memory (a + i)

/-- The C string at `a`, `count` bytes of it at most. -/
def textAt (memory : Memory) : Nat → Nat → Bytes
  | 0, _ => []
  | count + 1, a => if memory a = 0 then [] else memory a :: textAt memory count (a + 1)

/-- `CopyMem`. -/
def store (memory : Memory) (a : Nat) (bytes : Bytes) : Memory :=
  fun x => if a ≤ x ∧ x < a + bytes.length then bytes.getD (x - a) 0 else memory x

def searchFrom (memory : Memory) (search : Bytes) : Nat → Nat → Option Nat
  | 0, _ => none
  | left + 1, source =>
      if holds memory source search then some source else searchFrom memory search left (source + 1)

/-- The search over `Source <= Source + SourceSize - SearchSize`. -/
def searchMemory (memory : Memory) (source sourceSize : Nat) (search : Bytes) : Option Nat :=
  searchFrom memory search (sourceSize + 1 - search.length) source

/-- The loop of `SearchAndReplace`; `last` is the address behind `End`. -/
def replaceFrom (search replace : Bytes) (noReplacesRestriction : Bool) (last : Nat) :
    Nat → Nat → Int → Nat → Memory → Option (Memory × Nat)
  | 0, _, _, _, _ => none
  | rounds + 1, source, maxReplaces, numReplaces, memory =>
      if source < last ∧ (noReplacesRestriction ∨ 0 < maxReplaces) then
        if holds memory source search then
          replaceFrom search replace noReplacesRestriction last rounds (source + search.length) (maxReplaces - 1)
            (numReplaces + 1) (store memory source replace)
        else
          replaceFrom search replace noReplacesRestriction last rounds (source + 1) maxReplaces numReplaces memory
      else some (memory, numReplaces)

/-- An empty pattern is found without end. -/
def searchAndReplace (memory : Memory) (source sourceSize : Nat) (search replace : Bytes) (maxReplaces : Int) :
    Option (Memory × Nat) :=
  replaceFrom search replace (maxReplaces ≤ 0) (source + (sourceSize + 1 - search.length)) (sourceSize + 2) source
    maxReplaces 0 memory

/-- The loop of `SearchAndCount`. -/
def countFrom (memory : Memory) (search : Bytes) (last : Nat) : Nat → Nat → Nat → Option Nat
  | 0, _, _ => none
  | rounds + 1, source, numFounds =>
      if source < last then
        if holds memory source search then countFrom memory search last rounds (source + search.length) (numFounds + 1)
        else countFrom memory search last rounds (source + 1) numFounds
      else some numFounds

def searchAndCount (memory : Memory) (source sourceSize : Nat) (search : Bytes) : Option Nat :=
  countFrom memory search (source + (sourceSize + 1 - search.length)) (sourceSize + 2) source 0

/-! ### Searching -/

section Search

variable {memory : Memory} {a b count : Nat} {s t search : Bytes}

theorem zero_not_mem_cstr (value : Bytes) : 0 ∉ cstr value := by
  intro h
  have := List.mem_takeWhile_imp h
  simp at this

/-- The C string at an address where a text and its terminator stand. -/
theorem textAt_eq {count : Nat} (h : holds memory a (s ++ [0]) = true) (hs : 0 ∉ s) (hcount : s.length < count) :
    textAt memory count a = s := by
  obtain ⟨count, rfl⟩ := Nat.exists_eq_succ_of_ne_zero (Nat.ne_of_gt (Nat.zero_lt_of_lt hcount))
  induction s generalizing a count with
  | nil =>
      rw [textAt]
      exact if_pos (by simpa [holds] using h)
  | cons c s ih =>
      have hc : c ≠ 0 := fun h0 => hs (List.mem_cons.mpr (Or.inl h0.symm))
      rw [List.length_cons] at hcount
      obtain ⟨count, rfl⟩ := Nat.exists_eq_succ_of_ne_zero (show count ≠ 0 by omega)
      rw [List.cons_append, holds, Bool.and_eq_true, beq_iff_eq] at h
      rw [textAt, h.1, if_neg hc, ih h.2 (fun hmem => hs (List.mem_cons_of_mem _ hmem)) count (by omega)]

theorem holds_append : holds memory a (s ++ t) = (holds memory a s && holds memory (a + s.length) t) := by
  induction s generalizing a with
  | nil => rfl
  | cons c s ih =>
      rw [List.cons_append, holds, holds, ih, List.length_cons, Bool.and_assoc, Nat.add_assoc, Nat.add_comm 1]

theorem holds_cons {c : UInt8} : holds memory a (c :: s) = true ↔ memory a = c ∧ holds memory (a + 1) s = true := by
  rw [holds, Bool.and_eq_true, beq_iff_eq]

/-- Each byte of a text that stands in memory. -/
theorem holds_getD (h : holds memory a s = true) {i : Nat} (hi : i < s.length) : memory (a + i) = s.getD i 0 := by
  induction s generalizing a i with
  | nil => cases hi
  | cons c s ih =>
      rw [holds_cons] at h
      cases i with
      | zero => exact h.1
      | succ i =>
          rw [List.length_cons] at hi
          rw [List.getD_cons_succ, ← ih h.2 (by omega), Nat.add_assoc, Nat.add_comm 1]

theorem holds_congr {memory' : Memory} (h : ∀ i < s.length, memory' (a + i) = memory (a + i)) :
    holds memory' a s = holds memory a s := by
  induction s generalizing a with
  | nil => rfl
  | cons c s ih =>
      have hfirst := h 0 (by rw [List.length_cons]; omega)
      rw [Nat.add_zero] at hfirst
      rw [holds, holds, hfirst, ih]
      intro i hi
      have := h (i + 1) (by rw [List.length_cons]; omega)
      rwa [Nat.add_comm i, ← Nat.add_assoc] at this

theorem holds_of_getD (h : ∀ i < s.length, memory (a + i) = s.getD i 0) : holds memory a s = true := by
  induction s generalizing a with
  | nil => rfl
  | cons c s ih =>
      rw [holds_cons]
      refine ⟨h 0 (Nat.succ_pos _), ih ?_⟩
      intro i hi
      have hnext := h (i + 1) (Nat.succ_lt_succ hi)
      rwa [List.getD_cons_succ, Nat.add_comm i, ← Nat.add_assoc] at hnext

theorem store_outside {a x : Nat} {bytes : Bytes} (h : x < a ∨ a + bytes.length ≤ x) :
    store memory a bytes x = memory x := by
  unfold store
  rw [if_neg (by omega)]

theorem store_inside {a i : Nat} {bytes : Bytes} (h : i < bytes.length) : store memory a bytes (a + i) = bytes.getD i 0 := by
  unfold store
  rw [if_pos (by omega), Nat.add_sub_cancel_left]

theorem holds_store : holds (store memory a s) a s = true := holds_of_getD fun _ hi => store_inside hi

theorem holds_store_before {bytes : Bytes} (h : a + s.length ≤ b) :
    holds (store memory b bytes) a s = holds memory a s := by
  apply holds_congr
  intro i hi
  exact store_outside (Or.inl (by omega))

theorem searchFrom_eq_some {left source : Nat} : searchFrom memory search left source = some a ↔
    source ≤ a ∧ a < source + left ∧ holds memory a search = true ∧
      ∀ b, source ≤ b → b < a → holds memory b search = false := by
  induction left generalizing source with
  | zero =>
      constructor
      · intro h
        cases h
      · rintro ⟨hle, hlt, -⟩
        omega
  | succ left ih =>
      rw [searchFrom]
      by_cases hfound : holds memory source search = true
      · rw [if_pos hfound, Option.some_inj]
        constructor
        · rintro rfl
          exact ⟨Nat.le_refl _, by omega, hfound, fun b hle hlt => by omega⟩
        · rintro ⟨hle, -, -, hfirst⟩
          by_contra hne
          have := hfirst source (Nat.le_refl _) (by omega)
          rw [hfound] at this
          cases this
      · rw [if_neg hfound, ih]
        rw [Bool.not_eq_true] at hfound
        constructor
        · rintro ⟨hle, hlt, hat, hfirst⟩
          refine ⟨by omega, by omega, hat, ?_⟩
          intro b hb hba
          by_cases heq : b = source
          · rw [heq, hfound]
          · exact hfirst b (by omega) hba
        · rintro ⟨hle, hlt, hat, hfirst⟩
          have hne : source ≠ a := by
            rintro rfl
            rw [hfound] at hat
            cases hat
          exact ⟨by omega, by omega, hat, fun b hb hba => hfirst b (by omega) hba⟩

theorem searchFrom_eq_none {left source : Nat} : searchFrom memory search left source = none ↔
    ∀ b, source ≤ b → b < source + left → holds memory b search = false := by
  induction left generalizing source with
  | zero => exact ⟨fun _ b hle hlt => by omega, fun _ => rfl⟩
  | succ left ih =>
      rw [searchFrom]
      by_cases hfound : holds memory source search = true
      · rw [if_pos hfound]
        constructor
        · intro h
          cases h
        · intro h
          have := h source (Nat.le_refl _) (by omega)
          rw [hfound] at this
          cases this
      · rw [if_neg hfound, ih]
        rw [Bool.not_eq_true] at hfound
        constructor
        · intro h b hle hlt
          by_cases heq : b = source
          · rw [heq, hfound]
          · exact h b (by omega) (by omega)
        · exact fun h b hle hlt => h b (by omega) (by omega)

/-- The search gives the first occurrence that ends within the size. -/
theorem searchMemory_eq_some {source size : Nat} : searchMemory memory source size search = some a ↔
    source ≤ a ∧ a + search.length ≤ source + size ∧ holds memory a search = true ∧
      ∀ b, source ≤ b → b < a → holds memory b search = false := by
  rw [searchMemory, searchFrom_eq_some]
  apply and_congr_right
  intro hle
  apply and_congr_left
  intro _
  omega

theorem searchMemory_eq_none {source size : Nat} : searchMemory memory source size search = none ↔
    ∀ b, source ≤ b → b + search.length ≤ source + size → holds memory b search = false := by
  rw [searchMemory, searchFrom_eq_none]
  apply forall_congr'
  intro b
  apply imp_congr_right
  intro hle
  apply imp_congr_left
  omega

/-- A search sees the bytes of its range only. -/
theorem searchMemory_congr {memory' : Memory} {source size : Nat}
    (h : ∀ b, source ≤ b → b < source + size → memory' b = memory b) :
    searchMemory memory' source size search = searchMemory memory source size search := by
  have hholds : ∀ b, source ≤ b → b + search.length ≤ source + size →
      holds memory' b search = holds memory b search := by
    intro b hle hin
    exact holds_congr fun i hi => h (b + i) (by omega) (by omega)
  cases hfound : searchMemory memory source size search with
  | none =>
      rw [searchMemory_eq_none] at hfound ⊢
      intro b hle hin
      rw [hholds b hle hin, hfound b hle hin]
  | some a =>
      rw [searchMemory_eq_some] at hfound ⊢
      obtain ⟨hle, hin, hat, hfirst⟩ := hfound
      refine ⟨hle, hin, (hholds a hle hin).trans hat, ?_⟩
      intro b hb hba
      rw [hholds b hb (by omega), hfirst b hb hba]

end Search

end BareBoot.Kext
