import BareBoot.Word
import Mathlib.Logic.Function.Basic

/-! The kernel as bytes, for the patches of `kernel_patcher.c` that look at it byte by byte. The subscripts are `UINT32`,
and an access behind the end of the kernel is no value. -/

namespace BareBoot.Kernel

/-- Bytes at distances from a place: what is compared there, or what is stored. -/
abbrev Pattern := List (Int × UInt8)

@[ext]
structure KernelBytes where
  size : Nat
  byte : Nat → UInt8

namespace KernelBytes

variable (kernel : KernelBytes)

def read (i : Nat) : Option UInt8 := if i < kernel.size then some (kernel.byte i) else none

def write (i : Nat) (b : UInt8) : Option KernelBytes :=
  if i < kernel.size then some { kernel with byte := Function.update kernel.byte i b } else none

/-- `bytes[i+offset] == b && …`; what comes behind a difference is not read. -/
def test (i : Nat) : Pattern → Option Bool
  | [] => some true
  | (offset, b) :: pattern => do
      let c ← kernel.read (u32 (i + offset))
      if c = b then test i pattern else some false

/-- `bytes[i+offset] = b; …` -/
def writeAll (kernel : KernelBytes) (i : Nat) : Pattern → Option KernelBytes
  | [] => some kernel
  | (offset, b) :: pattern => do
      let kernel ← kernel.write (u32 (i + offset)) b
      kernel.writeAll i pattern

def holds (i : Nat) (pattern : Pattern) : Bool := pattern.all fun p => kernel.byte (u32 (i + p.1)) == p.2

def fill (i count : Nat) (b : UInt8) : KernelBytes :=
  { kernel with byte := fun x => if i ≤ x ∧ x < i + count then b else kernel.byte x }

end KernelBytes

namespace KernelBytes

variable {kernel : KernelBytes} {i : Nat} {pattern : Pattern}

theorem holds_iff : kernel.holds i pattern = true ↔ ∀ p ∈ pattern, kernel.byte (u32 (i + p.1)) = p.2 := by
  simp only [holds, List.all_eq_true, beq_iff_eq]

theorem holds_cons {offset : Int} {b : UInt8} : kernel.holds i ((offset, b) :: pattern) =
    (kernel.byte (u32 (i + offset)) == b && kernel.holds i pattern) := rfl

theorem test_eq (h : ∀ p ∈ pattern, u32 (i + p.1) < kernel.size) : kernel.test i pattern = some (kernel.holds i pattern) := by
  induction pattern with
  | nil => rfl
  | cons p pattern ih =>
      obtain ⟨offset, b⟩ := p
      obtain ⟨hhead, hrest⟩ := List.forall_mem_cons.mp h
      rw [test, read, if_pos hhead, holds_cons]
      by_cases hbyte : kernel.byte (u32 (i + offset)) = b
      · rw [Option.bind_eq_bind, Option.bind_some, if_pos hbyte, ih hrest, beq_iff_eq.mpr hbyte, Bool.true_and]
      · rw [Option.bind_eq_bind, Option.bind_some, if_neg hbyte, beq_eq_false_iff_ne.mpr hbyte, Bool.false_and]

theorem test_append {s t : Pattern} :
    kernel.test i (s ++ t) = (kernel.test i s).bind fun found => if found then kernel.test i t else some false := by
  induction s with
  | nil => rfl
  | cons p s ih =>
      obtain ⟨offset, b⟩ := p
      rw [List.cons_append, test, test]
      cases kernel.read (u32 (i + offset)) with
      | none => rfl
      | some c =>
          rw [Option.bind_eq_bind, Option.bind_some, Option.bind_some]
          split_ifs with hbyte
          · exact ih
          · rfl

/-- What a comparison finds, where all that it reads is there. -/
theorem test_cases (kernel : KernelBytes) (i : Nat) (pattern : Pattern) :
    kernel.test i pattern = none ∨ kernel.test i pattern = some (kernel.holds i pattern) := by
  induction pattern with
  | nil => exact Or.inr rfl
  | cons p pattern ih =>
      obtain ⟨offset, b⟩ := p
      rw [test, read, holds_cons]
      by_cases hin : u32 (i + offset) < kernel.size
      · rw [if_pos hin, Option.bind_eq_bind, Option.bind_some]
        by_cases hbyte : kernel.byte (u32 (i + offset)) = b
        · rw [if_pos hbyte, beq_iff_eq.mpr hbyte, Bool.true_and]
          exact ih
        · rw [if_neg hbyte, beq_eq_false_iff_ne.mpr hbyte, Bool.false_and]
          exact Or.inr rfl
      · rw [if_neg hin]
        exact Or.inl rfl

theorem test_first {offset : Int} {b : UInt8} {found : Bool} (h : kernel.test i ((offset, b) :: pattern) = some found) :
    u32 (i + offset) < kernel.size := by
  rw [test, read] at h
  by_contra hout
  rw [if_neg hout] at h
  cases h

/-- A comparison without a difference has read everything. -/
theorem test_inside (h : kernel.test i pattern = some true) : ∀ p ∈ pattern, u32 (i + p.1) < kernel.size := by
  induction pattern with
  | nil => exact fun p hp => absurd hp List.not_mem_nil
  | cons p pattern ih =>
      obtain ⟨offset, b⟩ := p
      refine List.forall_mem_cons.mpr ⟨test_first h, ?_⟩
      rw [test, read, if_pos (test_first h), Option.bind_eq_bind, Option.bind_some] at h
      split_ifs at h
      · exact ih h
      · cases h

theorem write_of_lt {b : UInt8} (h : i < kernel.size) :
    ∃ after, kernel.write i b = some after ∧ after.size = kernel.size := ⟨_, if_pos h, rfl⟩

theorem writeAll_of_lt (h : ∀ p ∈ pattern, u32 (i + p.1) < kernel.size) :
    ∃ after, kernel.writeAll i pattern = some after ∧ after.size = kernel.size := by
  induction pattern generalizing kernel with
  | nil => exact ⟨kernel, rfl, rfl⟩
  | cons p pattern ih =>
      obtain ⟨offset, b⟩ := p
      obtain ⟨hhead, hrest⟩ := List.forall_mem_cons.mp h
      obtain ⟨between, hwrite, hsize⟩ := write_of_lt (b := b) hhead
      obtain ⟨after, hrun, hafter⟩ := @ih between (by rwa [hsize])
      exact ⟨after, by rw [writeAll, hwrite, Option.bind_eq_bind, Option.bind_some, hrun], hafter.trans hsize⟩

theorem fill_byte_inside {count x : Nat} {b : UInt8} (h : i ≤ x ∧ x < i + count) : (kernel.fill i count b).byte x = b :=
  if_pos h

theorem fill_byte_outside {count x : Nat} {b : UInt8} (h : ¬(i ≤ x ∧ x < i + count)) :
    (kernel.fill i count b).byte x = kernel.byte x := if_neg h

/-- Filling with what the pattern never asks for makes no new match. -/
theorem holds_of_fill {a count : Nat} {b : UInt8} (hb : ∀ p ∈ pattern, p.2 ≠ b)
    (h : (kernel.fill a count b).holds i pattern = true) : kernel.holds i pattern = true := by
  rw [holds_iff] at h ⊢
  intro p hp
  have hbyte := h p hp
  by_cases hin : a ≤ u32 (i + p.1) ∧ u32 (i + p.1) < a + count
  · rw [fill_byte_inside hin] at hbyte
    exact absurd hbyte.symm (hb p hp)
  · rwa [fill_byte_outside hin] at hbyte

/-- A match that asks for no byte of the range stays. -/
theorem holds_fill {a count : Nat} {b : UInt8} (hapart : ∀ p ∈ pattern, ¬(a ≤ u32 (i + p.1) ∧ u32 (i + p.1) < a + count))
    (h : kernel.holds i pattern = true) : (kernel.fill a count b).holds i pattern = true := by
  rw [holds_iff] at h ⊢
  intro p hp
  rw [fill_byte_outside (hapart p hp), h p hp]

end KernelBytes

end BareBoot.Kernel
