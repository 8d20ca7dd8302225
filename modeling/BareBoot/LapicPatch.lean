import BareBoot.KernelBytes
import Mathlib.Algebra.Order.Ring.Nat
import Mathlib.Data.Nat.Cast.Basic
import Mathlib.Tactic.IntervalCases

/-! `KernelLapicPatch_64` and `KernelLapicPatch_32`: the call of `panic` behind the first signature is overwritten, once. -/

namespace BareBoot.Kernel

/-- One of the alternatives of the search, and how far behind it the call stands. -/
structure Signature where
  pattern : Pattern
  offset : Nat
  deriving DecidableEq

def lapicSignatures_64 : List Signature :=
  [⟨[(0, 0x65), (1, 0x8B), (2, 0x04), (3, 0x25), (4, 0x14), (5, 0x00), (6, 0x00), (7, 0x00),
      (35, 0x65), (36, 0x8B), (37, 0x04), (38, 0x25), (39, 0x14), (40, 0x00), (41, 0x00), (42, 0x00)], 30⟩,
    ⟨[(0, 0x65), (1, 0x8B), (2, 0x04), (3, 0x25), (4, 0x1C), (5, 0x00), (6, 0x00), (7, 0x00),
      (36, 0x65), (37, 0x8B), (38, 0x04), (39, 0x25), (40, 0x1C), (41, 0x00), (42, 0x00), (43, 0x00)], 31⟩,
    ⟨[(0, 0x65), (1, 0x8B), (2, 0x04), (3, 0x25), (4, 0x1C), (5, 0x00), (6, 0x00), (7, 0x00),
      (33, 0x65), (34, 0x8B), (35, 0x04), (36, 0x25), (37, 0x1C), (38, 0x00), (39, 0x00), (40, 0x00)], 28⟩]

def lapicSignatures_32 : List Signature :=
  [⟨[(0, 0x65), (1, 0xA1), (2, 0x0C), (3, 0x00), (4, 0x00), (5, 0x00),
      (30, 0x65), (31, 0xA1), (32, 0x0C), (33, 0x00), (34, 0x00), (35, 0x00)], 25⟩]

/-- The call, as it is after the patch. -/
def noCall : Pattern := [(0, 0x90), (1, 0x90), (2, 0x90), (3, 0x90), (4, 0x90)]

/-- The `if`s of one round. -/
def signatureAt (kernel : KernelBytes) (i : Nat) : List Signature → Option (Option Signature)
  | [] => some none
  | signature :: signatures => do
      if ← kernel.test i signature.pattern then some (some signature) else signatureAt kernel i signatures

/-- The search; `patchLocation` is 0 where nothing is found. -/
def findPatchLocation (signatures : List Signature) (kernel : KernelBytes) : Nat → Nat → Option Nat
  | 0, _ => some 0
  | rounds + 1, i => do
      match ← signatureAt kernel i signatures with
      | some signature => some (u32 (i + signature.offset))
      | none => findPatchLocation signatures kernel rounds (i + 1)

def searchWindow : Nat := 0x1000000

def lapicPatch (signatures : List Signature) (kernel : KernelBytes) : Option KernelBytes := do
  let patchLocation ← findPatchLocation signatures kernel searchWindow 0
  if patchLocation = 0 then some kernel
  else if ← kernel.test patchLocation noCall then some kernel
  else kernel.writeAll patchLocation noCall

def kernelLapicPatch_64 : KernelBytes → Option KernelBytes := lapicPatch lapicSignatures_64

def kernelLapicPatch_32 : KernelBytes → Option KernelBytes := lapicPatch lapicSignatures_32

/-! ### The first match -/

/-- The first of the signatures that stands at `i`. -/
def matchAt (signatures : List Signature) (kernel : KernelBytes) (i : Nat) : Option Signature :=
  signatures.find? fun signature => kernel.holds i signature.pattern

def FirstMatch (signatures : List Signature) (kernel : KernelBytes) (i : Nat) (signature : Signature) : Prop :=
  i < searchWindow ∧ matchAt signatures kernel i = some signature ∧ ∀ j < i, matchAt signatures kernel j = none

/-- Five bytes at the distance of the signature behind the first match are `0x90`, or there is no match, and nothing else
changes. -/
def Patched (signatures : List Signature) (kernel after : KernelBytes) : Prop :=
  (∃ i signature, FirstMatch signatures kernel i signature ∧ after = kernel.fill (i + signature.offset) 5 0x90) ∨
    ((∀ i < searchWindow, matchAt signatures kernel i = none) ∧ after = kernel)

/-- A second run of the patch changes nothing more. -/
def PatchesOnce (signatures : List Signature) (kernel : KernelBytes) : Prop :=
  ∃ after, lapicPatch signatures kernel = some after ∧ Patched signatures kernel after ∧
    lapicPatch signatures after = some after

/-- The bytes asked for lie in `span` of them, none is what the patch stores, and none lies in the call. -/
structure Signature.Fits (span : Nat) (signature : Signature) : Prop where
  inSpan : ∀ p ∈ signature.pattern, 0 ≤ p.1 ∧ p.1 < span
  notStored : ∀ p ∈ signature.pattern, p.2 ≠ 0x90
  notInCall : ∀ p ∈ signature.pattern, ¬((signature.offset : Int) ≤ p.1 ∧ p.1 < signature.offset + 5)
  offset_pos : 0 < signature.offset
  call_inSpan : signature.offset + 5 ≤ span

theorem lapicSignatures_64_fit : ∀ signature ∈ lapicSignatures_64, signature.Fits 44 := by
  intro signature h
  simp only [lapicSignatures_64, List.mem_cons, List.not_mem_nil, or_false] at h
  rcases h with rfl | rfl | rfl <;> constructor <;> decide

theorem lapicSignatures_32_fit : ∀ signature ∈ lapicSignatures_32, signature.Fits 36 := by
  intro signature h
  rw [lapicSignatures_32, List.mem_singleton] at h
  subst h
  constructor <;> decide

section Search

variable {signatures : List Signature} {span : Nat} {kernel : KernelBytes}

theorem matchAt_none_iff {i : Nat} : matchAt signatures kernel i = none ↔
    ∀ signature ∈ signatures, ¬kernel.holds i signature.pattern = true := List.find?_eq_none

theorem index_lt {i : Nat} {x : Int} (hi : i + span ≤ 2 ^ 32) (hx : 0 ≤ x ∧ x < span) :
    (u32 (i + x) : Int) = i + x := by
  unfold u32
  omega

theorem signatureAt_eq (hfits : ∀ signature ∈ signatures, signature.Fits span) {i : Nat} (hi : i + span ≤ kernel.size)
    (hlow : i + span ≤ 2 ^ 32) : signatureAt kernel i signatures = some (matchAt signatures kernel i) := by
  induction signatures with
  | nil => rfl
  | cons signature signatures ih =>
      obtain ⟨hhead, hrest⟩ := List.forall_mem_cons.mp hfits
      have htest : kernel.test i signature.pattern = some (kernel.holds i signature.pattern) := by
        apply KernelBytes.test_eq
        intro p hp
        have hin := hhead.inSpan p hp
        have hindex := index_lt hlow hin
        omega
      rw [signatureAt, htest, Option.bind_eq_bind, Option.bind_some, ih hrest, matchAt, matchAt, List.find?_cons]
      cases kernel.holds i signature.pattern <;> rfl

theorem findPatchLocation_spec (hfits : ∀ signature ∈ signatures, signature.Fits span) (rounds i : Nat)
    (hi : i + rounds + span ≤ kernel.size) (hlow : i + rounds + span ≤ 2 ^ 32) :
    (∃ k signature, i ≤ k ∧ k < i + rounds ∧ matchAt signatures kernel k = some signature ∧
        (∀ j, i ≤ j → j < k → matchAt signatures kernel j = none) ∧
        findPatchLocation signatures kernel rounds i = some (k + signature.offset)) ∨
      ((∀ j, i ≤ j → j < i + rounds → matchAt signatures kernel j = none) ∧
        findPatchLocation signatures kernel rounds i = some 0) := by
  induction rounds generalizing i with
  | zero => exact Or.inr ⟨fun j hle hlt => by omega, rfl⟩
  | succ rounds ih =>
      rw [findPatchLocation, signatureAt_eq hfits (by omega) (by omega), Option.bind_eq_bind, Option.bind_some]
      cases hmatch : matchAt signatures kernel i with
      | some signature =>
          have hcall := (hfits signature (List.mem_of_find?_eq_some hmatch)).call_inSpan
          have hoffset : u32 (i + signature.offset) = i + signature.offset := by
            rw [← Nat.cast_add]
            exact u32_natCast (by omega)
          refine Or.inl ⟨i, signature, le_rfl, by omega, hmatch, fun j hle hlt => by omega, ?_⟩
          exact congrArg some hoffset
      | none =>
          have hnext : ∀ j, i ≤ j → i + 1 ≤ j ∨ j = i := fun j hle => by omega
          rcases ih (i + 1) (by omega) (by omega) with ⟨k, signature, hle, hlt, hk, hbefore, hrun⟩ | ⟨hnone, hrun⟩
          · refine Or.inl ⟨k, signature, by omega, by omega, hk, ?_, hrun⟩
            intro j hj hjk
            rcases hnext j hj with h | rfl
            · exact hbefore j h hjk
            · exact hmatch
          · refine Or.inr ⟨?_, hrun⟩
            intro j hj hjk
            rcases hnext j hj with h | rfl
            · exact hnone j h (by omega)
            · exact hmatch

theorem writeAll_noCall {a : Nat} (h : a + 5 ≤ kernel.size) (hlow : a + 5 ≤ 2 ^ 32) :
    kernel.writeAll a noCall = some (kernel.fill a 5 0x90) := by
  have hindex : ∀ k : Nat, k < 5 → u32 ((a : Int) + (k : Int)) = a + k := by
    intro k hk
    rw [← Nat.cast_add]
    exact u32_natCast (by omega)
  have h0 := hindex 0 (by omega)
  have h1 := hindex 1 (by omega)
  have h2 := hindex 2 (by omega)
  have h3 := hindex 3 (by omega)
  have h4 := hindex 4 (by omega)
  simp only [Nat.cast_zero, Nat.cast_one, Nat.cast_ofNat] at h0 h1 h2 h3 h4
  simp only [noCall, KernelBytes.writeAll, KernelBytes.write, h0, h1, h2, h3, h4, Option.bind_eq_bind]
  rw [if_pos (by omega), Option.bind_some, if_pos (by simp only; omega), Option.bind_some, if_pos (by simp only; omega),
    Option.bind_some, if_pos (by simp only; omega), Option.bind_some, if_pos (by simp only; omega), Option.bind_some,
    Option.some.injEq]
  refine KernelBytes.ext rfl (funext fun x => ?_)
  simp only [KernelBytes.fill, Function.update_apply]
  split_ifs <;> first | rfl | omega

/-- A call that is gone already is the call the patch would leave. -/
theorem fill_of_holds {a : Nat} (hlow : a + 5 ≤ 2 ^ 32) (h : kernel.holds a noCall = true) :
    kernel.fill a 5 0x90 = kernel := by
  rw [KernelBytes.holds_iff] at h
  refine KernelBytes.ext rfl (funext fun x => ?_)
  by_cases hx : a ≤ x ∧ x < a + 5
  · obtain ⟨k, rfl⟩ := Nat.exists_eq_add_of_le hx.1
    have hk : k < 5 := by omega
    have hmem : ((k : Int), (0x90 : UInt8)) ∈ noCall := by
      interval_cases k <;> decide
    have hbyte := h _ hmem
    rw [← Nat.cast_add, u32_natCast (by omega)] at hbyte
    rw [KernelBytes.fill_byte_inside hx, hbyte]
  · rw [KernelBytes.fill_byte_outside hx]

theorem lapicPatch_eq (hfits : ∀ signature ∈ signatures, signature.Fits span) (hspan : span ≤ searchWindow)
    (hsize : searchWindow + span ≤ kernel.size) :
    (∃ i signature, FirstMatch signatures kernel i signature ∧
        lapicPatch signatures kernel = some (kernel.fill (i + signature.offset) 5 0x90)) ∨
      ((∀ i < searchWindow, matchAt signatures kernel i = none) ∧ lapicPatch signatures kernel = some kernel) := by
  have hwindow : searchWindow = 2 ^ 24 := rfl
  rw [lapicPatch]
  have hspec := @findPatchLocation_spec signatures span kernel hfits searchWindow 0 (by omega) (by omega)
  rcases hspec with
    ⟨i, signature, -, hlt, hmatch, hbefore, hrun⟩ | ⟨hnone, hrun⟩
  · rw [Nat.zero_add] at hlt
    have hsig := hfits signature (List.mem_of_find?_eq_some hmatch)
    have hcall := hsig.call_inSpan
    have hpos := hsig.offset_pos
    refine Or.inl ⟨i, signature, ⟨hlt, hmatch, fun j hj => hbefore j j.zero_le hj⟩, ?_⟩
    have htest : kernel.test (i + signature.offset) noCall = some (kernel.holds (i + signature.offset) noCall) := by
      apply KernelBytes.test_eq
      intro p hp
      have hp' : 0 ≤ p.1 ∧ p.1 < 5 := (by decide : ∀ p ∈ noCall, 0 ≤ p.1 ∧ p.1 < 5) p hp
      unfold u32
      omega
    rw [hrun, Option.bind_eq_bind, Option.bind_some, if_neg (by omega), htest, Option.bind_eq_bind,
      Option.bind_some]
    cases hdone : kernel.holds (i + signature.offset) noCall with
    | true => rw [if_pos rfl, fill_of_holds (by omega) hdone]
    | false => rw [if_neg Bool.false_ne_true, writeAll_noCall (by omega) (by omega)]
  · refine Or.inr ⟨fun i hi => hnone i i.zero_le (by omega), ?_⟩
    rw [hrun]
    rfl

/-- After the patch the same signature stands at the same place and no other one before it. -/
theorem FirstMatch.fill (hfits : ∀ signature ∈ signatures, signature.Fits span) (hspan : span ≤ searchWindow) {i : Nat}
    {signature : Signature} (h : FirstMatch signatures kernel i signature) :
    FirstMatch signatures (kernel.fill (i + signature.offset) 5 0x90) i signature := by
  have hwindow : searchWindow = 2 ^ 24 := rfl
  obtain ⟨hlt, hmatch, hbefore⟩ := h
  have hkeeps : ∀ other ∈ signatures, ∀ j, ¬kernel.holds j other.pattern = true →
      ¬(kernel.fill (i + signature.offset) 5 0x90).holds j other.pattern = true :=
    fun other hother j hnot hholds => hnot (KernelBytes.holds_of_fill (hfits other hother).notStored hholds)
  refine ⟨hlt, ?_, ?_⟩
  · rw [matchAt, List.find?_eq_some_iff_append] at hmatch ⊢
    obtain ⟨hholds, before, behind, hsplit, hfirst⟩ := hmatch
    have hsig := hfits signature (hsplit ▸ List.mem_append_right before List.mem_cons_self)
    refine ⟨?_, before, behind, hsplit, ?_⟩
    · apply KernelBytes.holds_fill _ hholds
      intro p hp hin
      have hspan' := hsig.inSpan p hp
      have hindex := index_lt (i := i) (by omega) hspan'
      have hnot := hsig.notInCall p hp
      omega
    · intro other hother
      have hmem : other ∈ signatures := hsplit ▸ List.mem_append_left _ hother
      have hnot := hfirst other hother
      rw [Bool.not_eq_true'] at hnot ⊢
      exact Bool.not_eq_true _ ▸ hkeeps other hmem i (Bool.not_eq_true _ ▸ hnot)
  · intro j hj
    have hnone := hbefore j hj
    rw [matchAt_none_iff] at hnone ⊢
    exact fun other hother => hkeeps other hother j (hnone other hother)

theorem FirstMatch.unique {i i' : Nat} {signature signature' : Signature} (h : FirstMatch signatures kernel i signature)
    (h' : FirstMatch signatures kernel i' signature') : i = i' ∧ signature = signature' := by
  obtain ⟨-, hmatch, hbefore⟩ := h
  obtain ⟨-, hmatch', hbefore'⟩ := h'
  rcases Nat.lt_trichotomy i i' with hlt | rfl | hlt
  · rw [hbefore' i hlt] at hmatch
    cases hmatch
  · exact ⟨rfl, Option.some.inj (hmatch.symm.trans hmatch')⟩
  · rw [hbefore i' hlt] at hmatch'
    cases hmatch'

theorem fill_fill (kernel : KernelBytes) (a count : Nat) (b : UInt8) :
    (kernel.fill a count b).fill a count b = kernel.fill a count b := by
  refine KernelBytes.ext rfl (funext fun x => ?_)
  simp only [KernelBytes.fill]
  split_ifs <;> rfl

theorem patchesOnce (hfits : ∀ signature ∈ signatures, signature.Fits span) (hspan : span ≤ searchWindow)
    (hsize : searchWindow + span ≤ kernel.size) : PatchesOnce signatures kernel := by
  rcases lapicPatch_eq hfits hspan hsize with ⟨i, signature, hfirst, hrun⟩ | ⟨hnone, hrun⟩
  · have hagain := hfirst.fill hfits hspan
    refine ⟨_, hrun, Or.inl ⟨i, signature, hfirst, rfl⟩, ?_⟩
    rcases @lapicPatch_eq signatures span (kernel.fill (i + signature.offset) 5 0x90) hfits hspan hsize with
      ⟨i', signature', hfirst', hrun'⟩ | ⟨hnone, -⟩
    · obtain ⟨rfl, rfl⟩ := hagain.unique hfirst'
      rw [hrun', fill_fill]
    · have hsome := hagain.2.1
      rw [hnone i hagain.1] at hsome
      cases hsome
  · exact ⟨kernel, hrun, Or.inr ⟨hnone, rfl⟩, hrun⟩

end Search

/-- Both patches overwrite the call behind the first match, and a second run leaves the kernel as the first one did. -/
theorem kernelLapicPatch_once (kernel : KernelBytes) :
    (searchWindow + 44 ≤ kernel.size →
      ∃ after, kernelLapicPatch_64 kernel = some after ∧ Patched lapicSignatures_64 kernel after ∧
        kernelLapicPatch_64 after = some after) ∧
      (searchWindow + 36 ≤ kernel.size →
        ∃ after, kernelLapicPatch_32 kernel = some after ∧ Patched lapicSignatures_32 kernel after ∧
          kernelLapicPatch_32 after = some after) := by
  constructor
  · exact patchesOnce lapicSignatures_64_fit (by decide)
  · exact patchesOnce lapicSignatures_32_fit (by decide)

/-- A kernel of zeros. -/
def blankKernel : KernelBytes := ⟨searchWindow + 44, fun _ => 0⟩

theorem blankKernel_once :
    (∃ after, kernelLapicPatch_64 blankKernel = some after ∧ Patched lapicSignatures_64 blankKernel after ∧
        kernelLapicPatch_64 after = some after) ∧
      ∃ after, kernelLapicPatch_32 blankKernel = some after ∧ Patched lapicSignatures_32 blankKernel after ∧
        kernelLapicPatch_32 after = some after :=
  ⟨(kernelLapicPatch_once blankKernel).1 (Nat.le_refl _),
    (kernelLapicPatch_once blankKernel).2 (Nat.add_le_add_left (by decide) searchWindow)⟩

end BareBoot.Kernel
