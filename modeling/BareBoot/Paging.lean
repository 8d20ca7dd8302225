import BareBoot.Fold
import Mathlib.Data.Nat.Bitwise
import Mathlib.Logic.Function.Basic
import Mathlib.Tactic.IntervalCases
import Mathlib.Tactic.Ring

/-! `X64/Paging.c` of DxeIpl: the page tables the DXE core starts under, and the walk of the processor through them.
Tables are read and written as aligned 64-bit words. -/

namespace BareBoot.Paging

/-- The 64-bit words of memory, by address. -/
abbrev Words := Nat → Nat

/-! ### Entries -/

/-- `Bits.ReadWrite = 1; Bits.Present = 1`. -/
def tableEntry (address : Nat) : Nat := address ||| 2 ||| 1

/-- An entry of a directory that maps two megabytes, `Bits.MustBe1` set as well. -/
def pageEntry2M (address : Nat) : Nat := address ||| 2 ||| 1 ||| 128

/-- `Bits.MustBeZero = 0` in an entry of a directory: bits 6 to 8. -/
def clearMustBeZero (entry : Nat) : Nat := entry - (entry &&& 0x1C0)

/-! ### Filling the tables -/

/-- How many bits of an address each level takes. -/
structure Levels where
  pml4BitsNum : Nat
  pdpteBitsNum : Nat
  pdeBitsNum : Nat
  deriving DecidableEq, Repr

structure Filling where
  words : Words
  tempPageTable : Nat
  pageAddress : Nat

/-- One round of the innermost loop. -/
def fillPde (pageDirectoryEntry : Nat) (s : Filling) (pdeIndex : Nat) : Filling :=
  { s with
    words := Function.update s.words (pageDirectoryEntry + 8 * pdeIndex) (pageEntry2M s.pageAddress)
    pageAddress := s.pageAddress + 2 ^ 21 }

/-- The next page is linked as a table. -/
def link (entry : Nat) (s : Filling) : Filling :=
  { s with
    words := Function.update s.words entry (tableEntry (s.tempPageTable + 4096))
    tempPageTable := s.tempPageTable + 4096 }

def fillPdpte (levels : Levels) (pageDirectoryPointerEntry : Nat) (s : Filling) (pdpteIndex : Nat) : Filling :=
  let s := link (pageDirectoryPointerEntry + 8 * pdpteIndex) s
  (List.range (2 ^ levels.pdeBitsNum)).foldl (fillPde s.tempPageTable) s

def fillPml4 (levels : Levels) (pageMapLevel4Entry : Nat) (s : Filling) (pml4Index : Nat) : Filling :=
  let s := link (pageMapLevel4Entry + 8 * pml4Index) s
  (List.range (2 ^ levels.pdpteBitsNum)).foldl (fillPdpte levels s.tempPageTable) s

def x64Create2MPageTables (levels : Levels) (pageTable : Nat) (words : Words) : Words :=
  ((List.range (2 ^ levels.pml4BitsNum)).foldl (fillPml4 levels pageTable) ⟨words, pageTable, 0⟩).words

/-- Pages of the tables, the one with entries for four kilobytes apart. -/
def pageNum2M (levels : Levels) : Nat := 1 + 2 ^ levels.pml4BitsNum + 2 ^ (levels.pml4BitsNum + levels.pdpteBitsNum)

def fillPte (pageTableEntry : Nat) (words : Words) (pteIndex : Nat) : Words :=
  Function.update words (pageTableEntry + 8 * pteIndex) (tableEntry (4096 * pteIndex))

/-- The first entry of the first directory is redirected to a table of its own. -/
def x64Create4KPageTables (levels : Levels) (pageTable : Nat) (words : Words) : Words :=
  let pageTableEntry := pageTable + pageNum2M levels * 4096
  (List.range (0x200000 / 4096)).foldl (fillPte pageTableEntry)
    (Function.update words (pageTable + 2 * 4096) (clearMustBeZero (tableEntry pageTableEntry)))

/-- The levels for a width of addresses, a `UINT8`. -/
def levelsOf (sizeOfMemorySpace : Nat) : Levels :=
  let size := (sizeOfMemorySpace + 256 - 21) % 256
  let pdeBitsNum := min size 9
  let pdpteBitsNum := min (size - pdeBitsNum) 9
  ⟨size - pdeBitsNum - pdpteBitsNum, pdpteBitsNum, pdeBitsNum⟩

/-- `NULL`, the end in `CpuDeadLoop`, or the tables and where they begin. -/
inductive Prepared where
  | null
  | deadLoop
  | tables (words : Words) (pageNumberBase : Nat)

def zeroMem (words : Words) (a size : Nat) : Words := fun x => if a ≤ x ∧ x < a + size then 0 else words x

def allocation (levels : Levels) : Nat := (pageNum2M levels + 1) * 4096

def preparePageTable (words : Words) (pageNumberTop sizeOfMemorySpace : Nat) : Prepared :=
  let levels := levelsOf sizeOfMemorySpace
  if 9 < levels.pml4BitsNum then .null
  else if pageNumberTop < allocation levels + 128 * 0x100000 then .deadLoop
  else
    let pageNumberBase := pageNumberTop - allocation levels
    .tables (x64Create4KPageTables levels pageNumberBase
      (x64Create2MPageTables levels pageNumberBase (zeroMem words pageNumberBase (allocation levels)))) pageNumberBase

/-! ### The walk of the processor -/

structure Mapping where
  physical : Nat
  writable : Bool
  deriving DecidableEq, Repr

def isPresent (entry : Nat) : Bool := entry.testBit 0
def isWritable (entry : Nat) : Bool := entry.testBit 1
def isLarge (entry : Nat) : Bool := entry.testBit 7

/-- Bits 12 to 51. -/
def tableAddress (entry : Nat) : Nat := entry / 2 ^ 12 % 2 ^ 40 * 2 ^ 12

def subscript (va shift : Nat) : Nat := va / 2 ^ shift % 512

/-- The four levels behind `CR3`; a large entry ends the walk early. -/
def translate (words : Words) (cr3 va : Nat) : Option Mapping :=
  let pml4e := words (cr3 + 8 * subscript va 39)
  if !isPresent pml4e then none
  else
    let pdpte := words (tableAddress pml4e + 8 * subscript va 30)
    if !isPresent pdpte then none
    else if isLarge pdpte then
      some ⟨pdpte / 2 ^ 30 % 2 ^ 22 * 2 ^ 30 + va % 2 ^ 30, isWritable pml4e && isWritable pdpte⟩
    else
      let pde := words (tableAddress pdpte + 8 * subscript va 21)
      if !isPresent pde then none
      else if isLarge pde then
        some ⟨pde / 2 ^ 21 % 2 ^ 31 * 2 ^ 21 + va % 2 ^ 21, isWritable pml4e && isWritable pdpte && isWritable pde⟩
      else
        let pte := words (tableAddress pde + 8 * subscript va 12)
        if !isPresent pte then none
        else
          some ⟨tableAddress pte + va % 2 ^ 12,
            isWritable pml4e && isWritable pdpte && isWritable pde && isWritable pte⟩

/-! ### What the entries say -/

section Entries

variable {address : Nat}

theorem tableEntry_eq (h : address % 4096 = 0) : tableEntry address = address + 3 := by
  obtain ⟨q, rfl⟩ := Nat.dvd_of_mod_eq_zero h
  rw [tableEntry, Nat.or_assoc]
  exact (Nat.two_pow_add_eq_or_of_lt (show 3 < 2 ^ 12 by omega) q).symm

theorem pageEntry2M_eq (h : address % 2 ^ 21 = 0) : pageEntry2M address = address + 131 := by
  obtain ⟨q, rfl⟩ := Nat.dvd_of_mod_eq_zero h
  rw [pageEntry2M, Nat.or_assoc, Nat.or_assoc]
  exact (Nat.two_pow_add_eq_or_of_lt (show 131 < 2 ^ 21 by omega) q).symm

theorem clearMustBeZero_eq (h : address % 4096 = 0) : clearMustBeZero (tableEntry address) = tableEntry address := by
  have hclear : tableEntry address &&& 0x1C0 = 0 := by
    apply Nat.eq_of_testBit_eq
    intro i
    rw [tableEntry_eq h, Nat.testBit_and, Nat.zero_testBit]
    by_cases hi : i < 12
    · rw [Nat.testBit_eq_decide_div_mod_eq, Nat.testBit_eq_decide_div_mod_eq]
      interval_cases i <;> simp <;> omega
    · rw [Nat.testBit_lt_two_pow (show 0x1C0 < 2 ^ i from Nat.lt_of_lt_of_le (by omega)
        (Nat.pow_le_pow_right (by omega) (Nat.le_of_not_lt hi))), Bool.and_false]
  rw [clearMustBeZero, hclear, Nat.sub_zero]

theorem tableEntry_bits (h : address % 4096 = 0) :
    isPresent (tableEntry address) = true ∧ isWritable (tableEntry address) = true ∧ isLarge (tableEntry address) = false := by
  rw [tableEntry_eq h, isPresent, isWritable, isLarge]
  simp only [Nat.testBit_eq_decide_div_mod_eq, decide_eq_true_eq, decide_eq_false_iff_not]
  omega

theorem tableEntry_address (h : address % 4096 = 0) (hlt : address < 2 ^ 52) :
    tableAddress (tableEntry address) = address := by
  rw [tableEntry_eq h, tableAddress]
  omega

theorem pageEntry2M_bits (h : address % 2 ^ 21 = 0) :
    isPresent (pageEntry2M address) = true ∧ isWritable (pageEntry2M address) = true ∧
      isLarge (pageEntry2M address) = true := by
  rw [pageEntry2M_eq h, isPresent, isWritable, isLarge]
  simp only [Nat.testBit_eq_decide_div_mod_eq, decide_eq_true_eq]
  omega

theorem pageEntry2M_address (h : address % 2 ^ 21 = 0) (hlt : address < 2 ^ 52) :
    pageEntry2M address / 2 ^ 21 % 2 ^ 31 * 2 ^ 21 = address := by
  rw [pageEntry2M_eq h]
  omega

end Entries

/-! ### What the loops write -/

section Steps

variable (pageDirectoryEntry entry : Nat) (s : Filling) (k : Nat)

@[simp] theorem fillPde_words : (fillPde pageDirectoryEntry s k).words =
    Function.update s.words (pageDirectoryEntry + 8 * k) (pageEntry2M s.pageAddress) := rfl

@[simp] theorem fillPde_pageAddress : (fillPde pageDirectoryEntry s k).pageAddress = s.pageAddress + 2 ^ 21 := rfl

@[simp] theorem link_words :
    (link entry s).words = Function.update s.words entry (tableEntry (s.tempPageTable + 4096)) := rfl

@[simp] theorem link_tempPageTable : (link entry s).tempPageTable = s.tempPageTable + 4096 := rfl

@[simp] theorem link_pageAddress : (link entry s).pageAddress = s.pageAddress := rfl

end Steps

/-- After `k` rounds of the innermost loop. -/
structure PdesFilled (pageDirectoryEntry : Nat) (start : Filling) (k : Nat) (s : Filling) : Prop where
  tempPageTable : s.tempPageTable = start.tempPageTable
  pageAddress : s.pageAddress = start.pageAddress + 2 ^ 21 * k
  entries : ∀ m < k, s.words (pageDirectoryEntry + 8 * m) = pageEntry2M (start.pageAddress + 2 ^ 21 * m)
  others : ∀ a, (∀ m < k, a ≠ pageDirectoryEntry + 8 * m) → s.words a = start.words a

theorem pdesFilled (pageDirectoryEntry : Nat) (start : Filling) (n : Nat) :
    PdesFilled pageDirectoryEntry start n ((List.range n).foldl (fillPde pageDirectoryEntry) start) := by
  apply Fold.foldl_range
  · exact ⟨rfl, rfl, fun m hm => absurd hm (Nat.not_lt_zero m), fun _ _ => rfl⟩
  · intro k s h
    refine ⟨h.tempPageTable, ?_, fun m hm => ?_, fun a ha => ?_⟩
    · rw [fillPde_pageAddress, h.pageAddress]
      ring
    · rw [fillPde_words]
      rcases Nat.lt_succ_iff_lt_or_eq.1 hm with hm | rfl
      · rw [Function.update_of_ne (by omega), h.entries m hm]
      · rw [Function.update_self, h.pageAddress]
    · rw [fillPde_words, Function.update_of_ne (ha k (Nat.lt_succ_self k)), h.others a fun m hm => ha m (by omega)]

/-- After `j` rounds of the loop over the directories of one pointer table, which is the page linked last. -/
structure DirectoriesFilled (pdes : Nat) (start : Filling) (j : Nat) (s : Filling) : Prop where
  tempPageTable : s.tempPageTable = start.tempPageTable + 4096 * j
  pageAddress : s.pageAddress = start.pageAddress + 2 ^ 21 * (j * pdes)
  tables : ∀ m < j, s.words (start.tempPageTable + 8 * m) = tableEntry (start.tempPageTable + 4096 * (m + 1))
  entries : ∀ m < j, ∀ k < pdes, s.words (start.tempPageTable + 4096 * (m + 1) + 8 * k) =
    pageEntry2M (start.pageAddress + 2 ^ 21 * (m * pdes + k))
  others : ∀ a, (∀ m < j, a ≠ start.tempPageTable + 8 * m) →
    (∀ m < j, ∀ k < pdes, a ≠ start.tempPageTable + 4096 * (m + 1) + 8 * k) → s.words a = start.words a

theorem directoriesFilled (levels : Levels) (hpde : 2 ^ levels.pdeBitsNum ≤ 512) (start : Filling) {n : Nat} (hn : n ≤ 512) :
    DirectoriesFilled (2 ^ levels.pdeBitsNum) start n
      ((List.range n).foldl (fillPdpte levels start.tempPageTable) start) := by
  generalize hpdes : 2 ^ levels.pdeBitsNum = pdes at hpde ⊢
  suffices h : n ≤ 512 → DirectoriesFilled pdes start n
      ((List.range n).foldl (fillPdpte levels start.tempPageTable) start) from h hn
  apply Fold.foldl_range (P := fun j s => j ≤ 512 → DirectoriesFilled pdes start j s)
  · intro _
    exact ⟨rfl, by simp, fun m hm => absurd hm (Nat.not_lt_zero m), fun m hm => absurd hm (Nat.not_lt_zero m), fun _ _ _ => rfl⟩
  · intro j s hprev hj
    have h := hprev (by omega)
    obtain ⟨htemp, haddress, hentries, hothers⟩ :=
      pdesFilled (link (start.tempPageTable + 8 * j) s).tempPageTable (link (start.tempPageTable + 8 * j) s) pdes
    have hlinked : (link (start.tempPageTable + 8 * j) s).tempPageTable = start.tempPageTable + 4096 * (j + 1) := by
      rw [link, h.tempPageTable]
      ring
    rw [fillPdpte, hpdes]
    refine ⟨htemp.trans hlinked, ?_, fun m hm => ?_, fun m hm k hk => ?_, fun a htables hpages => ?_⟩
    · rw [haddress, link_pageAddress, h.pageAddress]
      ring
    · rw [hothers, link_words]
      · rcases Nat.lt_succ_iff_lt_or_eq.1 hm with hm | rfl
        · rw [Function.update_of_ne (by omega), h.tables m hm]
        · rw [Function.update_self, h.tempPageTable, Nat.add_assoc, ← Nat.mul_succ]
      · intro k hk
        rw [hlinked]
        omega
    · rcases Nat.lt_succ_iff_lt_or_eq.1 hm with hm | rfl
      · rw [hothers, link_words, Function.update_of_ne (by omega), h.entries m hm k hk]
        intro k' hk'
        rw [hlinked]
        omega
      · rw [← hlinked, hentries k hk, link_pageAddress, h.pageAddress]
        congr 1
        ring
    · rw [hothers, link_words, Function.update_of_ne (htables j (by omega))]
      · exact h.others a (fun m hm => htables m (by omega)) fun m hm => hpages m (by omega)
      · intro k hk
        rw [hlinked]
        exact hpages j (by omega) k hk

/-- After `i` rounds of the outermost loop, each of which takes a page for the pointers and one for each directory. -/
structure TablesFilled (directories pdes : Nat) (start : Filling) (i : Nat) (s : Filling) : Prop where
  tempPageTable : s.tempPageTable = start.tempPageTable + 4096 * (i * (directories + 1))
  pageAddress : s.pageAddress = start.pageAddress + 2 ^ 21 * (i * (directories * pdes))
  pointers : ∀ m < i, s.words (start.tempPageTable + 8 * m) =
    tableEntry (start.tempPageTable + 4096 * (m * (directories + 1) + 1))
  tables : ∀ m < i, ∀ j < directories, s.words (start.tempPageTable + 4096 * (m * (directories + 1) + 1) + 8 * j) =
    tableEntry (start.tempPageTable + 4096 * (m * (directories + 1) + 1) + 4096 * (j + 1))
  entries : ∀ m < i, ∀ j < directories, ∀ k < pdes,
    s.words (start.tempPageTable + 4096 * (m * (directories + 1) + 1) + 4096 * (j + 1) + 8 * k) =
      pageEntry2M (start.pageAddress + 2 ^ 21 * (m * (directories * pdes) + (j * pdes + k)))
  others : ∀ a, (∀ m < i, a ≠ start.tempPageTable + 8 * m) →
    (∀ m < i, ∀ j < directories, a ≠ start.tempPageTable + 4096 * (m * (directories + 1) + 1) + 8 * j) →
    (∀ m < i, ∀ j < directories, ∀ k < pdes,
      a ≠ start.tempPageTable + 4096 * (m * (directories + 1) + 1) + 4096 * (j + 1) + 8 * k) →
    s.words a = start.words a

theorem tablesFilled (levels : Levels) (hpde : 2 ^ levels.pdeBitsNum ≤ 512) (hpdpte : 2 ^ levels.pdpteBitsNum ≤ 512)
    (start : Filling) {n : Nat} (hn : n ≤ 512) :
    TablesFilled (2 ^ levels.pdpteBitsNum) (2 ^ levels.pdeBitsNum) start n
      ((List.range n).foldl (fillPml4 levels start.tempPageTable) start) := by
  suffices h : n ≤ 512 → TablesFilled (2 ^ levels.pdpteBitsNum) (2 ^ levels.pdeBitsNum) start n
      ((List.range n).foldl (fillPml4 levels start.tempPageTable) start) from h hn
  apply Fold.foldl_range (P := fun i s =>
    i ≤ 512 → TablesFilled (2 ^ levels.pdpteBitsNum) (2 ^ levels.pdeBitsNum) start i s)
  · intro _
    refine ⟨by simp, by simp, ?_, ?_, ?_, fun _ _ _ _ => rfl⟩ <;> intro m hm <;> exact absurd hm (Nat.not_lt_zero m)
  · intro i s hprev hi
    have h := hprev (by omega)
    have hround := directoriesFilled levels hpde (link (start.tempPageTable + 8 * i) s) hpdpte
    rw [fillPml4]
    generalize (List.range (2 ^ levels.pdpteBitsNum)).foldl _ _ = after at hround ⊢
    generalize 2 ^ levels.pdpteBitsNum = directories at *
    generalize 2 ^ levels.pdeBitsNum = pdes at *
    have hlinked : (link (start.tempPageTable + 8 * i) s).tempPageTable =
        start.tempPageTable + 4096 * (i * (directories + 1) + 1) := by
      rw [link_tempPageTable, h.tempPageTable, Nat.add_assoc, ← Nat.mul_succ]
    -- the pages of earlier rounds lie in front of those of this one
    have hbefore : ∀ m < i, m * (directories + 1) + (directories + 1) ≤ i * (directories + 1) := by
      intro m hm
      rw [← Nat.succ_mul]
      exact Nat.mul_le_mul_right _ hm
    obtain ⟨htemp, haddress, htables, hentries, hothers⟩ := hround
    rw [hlinked] at htemp htables hentries hothers
    rw [link_words] at hothers
    rw [link_pageAddress, h.pageAddress] at haddress hentries
    refine ⟨?_, ?_, fun m hm => ?_, fun m hm j hj => ?_, fun m hm j hj k hk => ?_, fun a hpointers htables' hpages => ?_⟩
    · rw [htemp]
      ring
    · rw [haddress]
      ring
    · rw [hothers _ (fun m' hm' => by omega) (fun m' hm' k hk => by omega)]
      rcases Nat.lt_succ_iff_lt_or_eq.1 hm with hm | rfl
      · rw [Function.update_of_ne (by omega), h.pointers m hm]
      · rw [Function.update_self, h.tempPageTable, Nat.add_assoc, ← Nat.mul_succ]
    · rcases Nat.lt_succ_iff_lt_or_eq.1 hm with hm | rfl
      · have hpages := hbefore m hm
        rw [hothers _ (fun m' hm' => by omega) (fun m' hm' k hk => by omega), Function.update_of_ne (by omega),
          h.tables m hm j hj]
      · exact htables j hj
    · rcases Nat.lt_succ_iff_lt_or_eq.1 hm with hm | rfl
      · have hpages := hbefore m hm
        rw [hothers _ (fun m' hm' => by omega) (fun m' hm' k hk => by omega), Function.update_of_ne (by omega),
          h.entries m hm j hj k hk]
      · rw [hentries j hj k hk, Nat.add_assoc, ← Nat.mul_add]
    · rw [hothers a (htables' i (by omega)) (hpages i (by omega)), Function.update_of_ne (hpointers i (by omega))]
      exact h.others a (fun m hm => hpointers m (by omega)) (fun m hm => htables' m (by omega))
        fun m hm => hpages m (by omega)

structure PtesFilled (pageTableEntry : Nat) (start : Words) (n : Nat) (words : Words) : Prop where
  entries : ∀ m < n, words (pageTableEntry + 8 * m) = tableEntry (4096 * m)
  others : ∀ a, (∀ m < n, a ≠ pageTableEntry + 8 * m) → words a = start a

theorem ptesFilled (pageTableEntry : Nat) (start : Words) (n : Nat) :
    PtesFilled pageTableEntry start n ((List.range n).foldl (fillPte pageTableEntry) start) := by
  apply Fold.foldl_range
  · exact ⟨fun m hm => absurd hm (Nat.not_lt_zero m), fun _ _ => rfl⟩
  · rintro k words ⟨hentries, hothers⟩
    refine ⟨fun m hm => ?_, fun a ha => ?_⟩
    · rw [fillPte]
      rcases Nat.lt_succ_iff_lt_or_eq.1 hm with hm | rfl
      · rw [Function.update_of_ne (by omega), hentries m hm]
      · rw [Function.update_self]
    · rw [fillPte, Function.update_of_ne (ha k (Nat.lt_succ_self k)), hothers a fun m hm => ha m (by omega)]

theorem three_le_pageNum2M (levels : Levels) : 3 ≤ pageNum2M levels := by
  have hpml4 : 0 < 2 ^ levels.pml4BitsNum := Nat.two_pow_pos _
  have hall : 0 < 2 ^ (levels.pml4BitsNum + levels.pdpteBitsNum) := Nat.two_pow_pos _
  rw [pageNum2M]
  omega

/-- What the table for the first two megabytes adds. -/
theorem x64Create4KPageTables_apply (levels : Levels) {pageTable : Nat} (halign : pageTable % 4096 = 0) (words : Words) :
    (∀ m < 512, x64Create4KPageTables levels pageTable words (pageTable + pageNum2M levels * 4096 + 8 * m) =
        tableEntry (4096 * m)) ∧
      x64Create4KPageTables levels pageTable words (pageTable + 2 * 4096) =
        tableEntry (pageTable + pageNum2M levels * 4096) ∧
      ∀ a, a ≠ pageTable + 2 * 4096 → (∀ m < 512, a ≠ pageTable + pageNum2M levels * 4096 + 8 * m) →
        x64Create4KPageTables levels pageTable words a = words a := by
  have hpages := three_le_pageNum2M levels
  have hsmall := ptesFilled (pageTable + pageNum2M levels * 4096)
    (Function.update words (pageTable + 2 * 4096) (tableEntry (pageTable + pageNum2M levels * 4096))) 512
  rw [x64Create4KPageTables, clearMustBeZero_eq (by omega)]
  refine ⟨hsmall.entries, ?_, fun a ha hentries => ?_⟩
  · exact (hsmall.others _ fun m hm => by omega).trans (Function.update_self ..)
  · exact (hsmall.others a hentries).trans (Function.update_of_ne ha ..)

/-! ### The tables as a whole -/

/-- Where the pointer table of entry `i` is, and directory `j` behind it. -/
def pointerTable (levels : Levels) (base i : Nat) : Nat := base + 4096 * (i * (2 ^ levels.pdpteBitsNum + 1) + 1)

def directory (levels : Levels) (base i j : Nat) : Nat := pointerTable levels base i + 4096 * (j + 1)

def pageNumber (levels : Levels) (i j k : Nat) : Nat :=
  i * (2 ^ levels.pdpteBitsNum * 2 ^ levels.pdeBitsNum) + (j * 2 ^ levels.pdeBitsNum + k)

/-- Each entry of the tables at `base`: filled, or zero. -/
structure Tables (levels : Levels) (base : Nat) (words : Words) : Prop where
  pml4 : ∀ i < 512, words (base + 8 * i) =
    if i < 2 ^ levels.pml4BitsNum then tableEntry (pointerTable levels base i) else 0
  pointers : ∀ i < 2 ^ levels.pml4BitsNum, ∀ j < 512, words (pointerTable levels base i + 8 * j) =
    if j < 2 ^ levels.pdpteBitsNum then tableEntry (directory levels base i j) else 0
  directories : ∀ i < 2 ^ levels.pml4BitsNum, ∀ j < 2 ^ levels.pdpteBitsNum, ∀ k < 512,
    words (directory levels base i j + 8 * k) =
      if i = 0 ∧ j = 0 ∧ k = 0 then tableEntry (base + pageNum2M levels * 4096)
      else if k < 2 ^ levels.pdeBitsNum then pageEntry2M (2 ^ 21 * pageNumber levels i j k) else 0
  pageTable : ∀ m < 512, words (base + pageNum2M levels * 4096 + 8 * m) = tableEntry (4096 * m)

/-- The parts of the tables lie one behind the other. -/
theorem directory_bound {levels : Levels} {i j : Nat} (hi : i < 2 ^ levels.pml4BitsNum) (hj : j < 2 ^ levels.pdpteBitsNum)
    (base : Nat) : directory levels base i j + 4096 ≤ base + pageNum2M levels * 4096 := by
  have hlast : i * (2 ^ levels.pdpteBitsNum + 1) + (2 ^ levels.pdpteBitsNum + 1) ≤
      2 ^ levels.pml4BitsNum * (2 ^ levels.pdpteBitsNum + 1) := by
    rw [← Nat.succ_mul]
    exact Nat.mul_le_mul_right _ hi
  have hsplit : 2 ^ levels.pml4BitsNum * (2 ^ levels.pdpteBitsNum + 1) =
      2 ^ levels.pml4BitsNum * 2 ^ levels.pdpteBitsNum + 2 ^ levels.pml4BitsNum := Nat.mul_succ ..
  rw [directory, pointerTable, pageNum2M, Nat.pow_add]
  omega

/-- Two pointer tables are apart by the directories between them. -/
theorem pointerTable_apart (levels : Levels) (base : Nat) {i m : Nat} (h : i ≠ m) :
    pointerTable levels base i + 4096 * (2 ^ levels.pdpteBitsNum + 1) ≤ pointerTable levels base m ∨
      pointerTable levels base m + 4096 * (2 ^ levels.pdpteBitsNum + 1) ≤ pointerTable levels base i := by
  have hmul : ∀ {i m : Nat}, i < m →
      i * (2 ^ levels.pdpteBitsNum + 1) + (2 ^ levels.pdpteBitsNum + 1) ≤ m * (2 ^ levels.pdpteBitsNum + 1) := by
    intro i m hlt
    rw [← Nat.succ_mul]
    exact Nat.mul_le_mul_right _ hlt
  rw [pointerTable, pointerTable]
  rcases Nat.lt_or_gt_of_ne h with hlt | hlt
  · have hle := hmul hlt
    omega
  · have hle := hmul hlt
    omega

theorem le_pointerTable (levels : Levels) (base i : Nat) : base + 4096 ≤ pointerTable levels base i := by
  rw [pointerTable]
  omega

theorem first_pointerTable (levels : Levels) (base : Nat) : pointerTable levels base 0 = base + 4096 := by
  rw [pointerTable]
  omega

theorem later_pointerTable (levels : Levels) (base : Nat) {i : Nat} (h : i ≠ 0) :
    pointerTable levels base 0 + 4096 * 2 ≤ pointerTable levels base i := by
  have hpages : 4096 * 2 ≤ 4096 * (2 ^ levels.pdpteBitsNum + 1) :=
    Nat.mul_le_mul_left _ (Nat.succ_le_succ Nat.one_le_two_pow)
  have hle := le_pointerTable levels base i
  rw [← first_pointerTable levels base] at hle
  have hapart := pointerTable_apart levels base h
  generalize 4096 * (2 ^ levels.pdpteBitsNum + 1) = pages at hapart hpages
  omega

variable {levels : Levels} {base : Nat} {words : Words}

theorem tables_filled (hpde : 2 ^ levels.pdeBitsNum ≤ 512) (hpdpte : 2 ^ levels.pdpteBitsNum ≤ 512)
    (hpml4 : 2 ^ levels.pml4BitsNum ≤ 512) (halign : base % 4096 = 0)
    (hzero : ∀ a, base ≤ a → a < base + allocation levels → words a = 0) :
    Tables levels base (x64Create4KPageTables levels base (x64Create2MPageTables levels base words)) := by
  have hfilled : TablesFilled _ _ ⟨words, base, 0⟩ _ _ := tablesFilled levels hpde hpdpte ⟨words, base, 0⟩ hpml4
  obtain ⟨hpages, hfirst, hothers⟩ :=
    x64Create4KPageTables_apply levels halign (x64Create2MPageTables levels base words)
  have hthree := three_le_pageNum2M levels
  have hpointers : 0 < 2 ^ levels.pdpteBitsNum := Nat.two_pow_pos _
  have hfirstTable := first_pointerTable levels base
  have hsize : allocation levels = (pageNum2M levels + 1) * 4096 := rfl
  refine ⟨fun i hi => ?_, fun i hi j hj => ?_, fun i hi j hj k hk => ?_, hpages⟩
  · rw [hothers _ (by omega) fun m hm => by omega]
    by_cases hlt : i < 2 ^ levels.pml4BitsNum
    · rw [if_pos hlt]
      exact hfilled.pointers i hlt
    · rw [if_neg hlt]
      refine (hfilled.others _ (fun m hm => ?_) (fun m hm j hj => ?_) fun m hm j hj k hk => ?_).trans
        (hzero _ (by omega) (by omega))
      · show base + 8 * i ≠ base + 8 * m
        omega
      · have hle := le_pointerTable levels base m
        show base + 8 * i ≠ pointerTable levels base m + 8 * j
        omega
      · have hle := le_pointerTable levels base m
        show base + 8 * i ≠ pointerTable levels base m + 4096 * (j + 1) + 8 * k
        omega
  · have hbound := directory_bound hi hpointers base
    have hle := le_pointerTable levels base i
    rw [directory] at hbound
    have hnotFirst : pointerTable levels base i + 8 * j ≠ base + 2 * 4096 := by
      by_cases hi0 : i = 0
      · subst hi0
        omega
      · have hlater := later_pointerTable levels base hi0
        omega
    rw [hothers _ hnotFirst fun m hm => by omega]
    by_cases hlt : j < 2 ^ levels.pdpteBitsNum
    · rw [if_pos hlt]
      exact hfilled.tables i hi j hlt
    · rw [if_neg hlt]
      refine (hfilled.others _ (fun m hm => ?_) (fun m hm j' hj' => ?_) fun m hm j' hj' k hk => ?_).trans
        (hzero _ (by omega) (by omega))
      · show pointerTable levels base i + 8 * j ≠ base + 8 * m
        omega
      · show pointerTable levels base i + 8 * j ≠ pointerTable levels base m + 8 * j'
        by_cases hm' : i = m
        · subst hm'
          omega
        · rcases pointerTable_apart levels base hm' with hapart | hapart <;> omega
      · show pointerTable levels base i + 8 * j ≠ pointerTable levels base m + 4096 * (j' + 1) + 8 * k
        by_cases hm' : i = m
        · subst hm'
          omega
        · rcases pointerTable_apart levels base hm' with hapart | hapart <;> omega
  · have hbound := directory_bound hi hj base
    have hle := le_pointerTable levels base i
    by_cases hzeros : i = 0 ∧ j = 0 ∧ k = 0
    · rw [if_pos hzeros]
      obtain ⟨rfl, rfl, rfl⟩ := hzeros
      rw [directory, hfirstTable]
      exact hfirst
    · rw [directory] at hbound ⊢
      have hnotFirst : pointerTable levels base i + 4096 * (j + 1) + 8 * k ≠ base + 2 * 4096 := by
        by_cases hi0 : i = 0
        · subst hi0
          omega
        · have hlater := later_pointerTable levels base hi0
          omega
      rw [if_neg hzeros, hothers _ hnotFirst fun m hm => by omega]
      by_cases hlt : k < 2 ^ levels.pdeBitsNum
      · rw [if_pos hlt]
        exact (hfilled.entries i hi j hj k hlt).trans (congrArg pageEntry2M (Nat.zero_add _))
      · rw [if_neg hlt]
        refine (hfilled.others _ (fun m hm => ?_) (fun m hm j' hj' => ?_) fun m hm j' hj' k' hk' => ?_).trans
          (hzero _ (by omega) (by omega))
        · show pointerTable levels base i + 4096 * (j + 1) + 8 * k ≠ base + 8 * m
          omega
        · show pointerTable levels base i + 4096 * (j + 1) + 8 * k ≠ pointerTable levels base m + 8 * j'
          by_cases hm' : i = m
          · subst hm'
            omega
          · rcases pointerTable_apart levels base hm' with hapart | hapart <;> omega
        · show pointerTable levels base i + 4096 * (j + 1) + 8 * k ≠
            pointerTable levels base m + 4096 * (j' + 1) + 8 * k'
          by_cases hm' : i = m
          · subst hm'
            omega
          · rcases pointerTable_apart levels base hm' with hapart | hapart <;> omega

/-! ### What the processor finds -/

/-- Address widths for which there are tables; a level is used when those below it are full. -/
structure Levels.Of (levels : Levels) (size : Nat) : Prop where
  size : levels.pml4BitsNum + levels.pdpteBitsNum + levels.pdeBitsNum + 21 = size
  pml4 : levels.pml4BitsNum ≤ 9
  pdpte : levels.pdpteBitsNum ≤ 9
  pde : levels.pdeBitsNum ≤ 9
  full : levels.pdpteBitsNum ≠ 0 → levels.pdeBitsNum = 9
  full' : levels.pml4BitsNum ≠ 0 → levels.pdpteBitsNum = 9

theorem levelsOf_of {size : Nat} (hsize : size < 256) (h : (levelsOf size).pml4BitsNum ≤ 9) : (levelsOf size).Of size := by
  have hmin : ∀ n, min n 9 ≤ 9 := fun n => Nat.min_le_right n 9
  rw [levelsOf] at h ⊢
  dsimp only at h ⊢
  refine ⟨?_, h, hmin _, hmin _, ?_, ?_⟩ <;> dsimp only <;> omega

section Walk

variable {size va : Nat} (hlevels : levels.Of size)
include hlevels

/-- The entries an address leads through are filled exactly if it is below `2 ^ size`. -/
theorem filled_iff (hva : va < 2 ^ 48) :
    (subscript va 39 < 2 ^ levels.pml4BitsNum ∧ subscript va 30 < 2 ^ levels.pdpteBitsNum ∧
      subscript va 21 < 2 ^ levels.pdeBitsNum) ↔ va < 2 ^ size := by
  obtain ⟨hsize, hpml4, hpdpte, hpde, hfull, hfull'⟩ := hlevels
  rw [subscript, subscript, subscript, ← hsize]
  by_cases hz : levels.pml4BitsNum = 0
  · by_cases hz' : levels.pdpteBitsNum = 0
    · have hle : 2 ^ levels.pdeBitsNum ≤ 2 ^ 9 := Nat.pow_le_pow_right (by decide) hpde
      rw [hz, hz', Nat.zero_add, Nat.pow_add]
      generalize 2 ^ levels.pdeBitsNum = entries at *
      omega
    · have hle : 2 ^ levels.pdpteBitsNum ≤ 2 ^ 9 := Nat.pow_le_pow_right (by decide) hpdpte
      rw [hz, hfull hz', Nat.zero_add, Nat.add_assoc, Nat.pow_add]
      generalize 2 ^ levels.pdpteBitsNum = entries at *
      omega
  · have hnine := hfull' hz
    have hle : 2 ^ levels.pml4BitsNum ≤ 2 ^ 9 := Nat.pow_le_pow_right (by decide) hpml4
    rw [hnine, hfull (by omega), Nat.add_assoc, Nat.add_assoc, Nat.pow_add]
    generalize 2 ^ levels.pml4BitsNum = entries at *
    omega

theorem pageNumber_eq (hva : va < 2 ^ 48) (h : va < 2 ^ size) :
    pageNumber levels (subscript va 39) (subscript va 30) (subscript va 21) = va / 2 ^ 21 := by
  obtain ⟨hsize, hpml4, hpdpte, hpde, hfull, hfull'⟩ := hlevels
  rw [pageNumber, subscript, subscript, subscript]
  rw [← hsize] at h
  by_cases hz : levels.pml4BitsNum = 0
  · by_cases hz' : levels.pdpteBitsNum = 0
    · have hle : 2 ^ levels.pdeBitsNum ≤ 2 ^ 9 := Nat.pow_le_pow_right (by decide) hpde
      rw [hz, hz', Nat.zero_add, Nat.pow_add] at h
      have hzero : va / 2 ^ 39 % 512 = 0 ∧ va / 2 ^ 30 % 512 = 0 := by
        generalize 2 ^ levels.pdeBitsNum = entries at *
        omega
      rw [hzero.1, hzero.2, Nat.zero_mul, Nat.zero_mul, Nat.zero_add, Nat.zero_add]
      omega
    · have hle : 2 ^ levels.pdpteBitsNum ≤ 2 ^ 9 := Nat.pow_le_pow_right (by decide) hpdpte
      rw [hz, hfull hz', Nat.zero_add, Nat.add_assoc, Nat.pow_add] at h
      have hzero : va / 2 ^ 39 % 512 = 0 := by
        generalize 2 ^ levels.pdpteBitsNum = entries at *
        omega
      rw [hzero, hfull hz', Nat.zero_mul]
      omega
  · rw [hfull' hz, hfull (by rw [hfull' hz]; decide)]
    omega

end Walk

theorem subscript_lt (va shift : Nat) : subscript va shift < 512 := Nat.mod_lt _ (by decide)

theorem isPresent_zero : isPresent 0 = false := rfl

/-- Through the tables every address below `2 ^ size` is mapped to itself for reading and writing, and no other one. -/
theorem Tables.translate_eq {size va : Nat} (h : Tables levels base words) (hlevels : levels.Of size)
    (halign : base % 4096 = 0) (hlast : base + allocation levels ≤ 2 ^ 52) (hva : va < 2 ^ 48) :
    translate words base va = if va < 2 ^ size then some ⟨va, true⟩ else none := by
  have hcovered := filled_iff hlevels hva
  have hpml4 := h.pml4 (subscript va 39) (subscript_lt va 39)
  have hsize : allocation levels = pageNum2M levels * 4096 + 4096 := Nat.succ_mul ..
  rw [translate]
  by_cases hi : subscript va 39 < 2 ^ levels.pml4BitsNum
  swap
  · rw [if_neg hi] at hpml4
    rw [if_neg fun hlt => hi (hcovered.2 hlt).1, hpml4, isPresent_zero]
    rfl
  have hpointer := h.pointers _ hi (subscript va 30) (subscript_lt va 30)
  have hpointerTable : pointerTable levels base (subscript va 39) % 4096 = 0 := by
    rw [pointerTable]
    omega
  have hbelow := directory_bound hi (Nat.two_pow_pos levels.pdpteBitsNum) base
  have hbelow' : pointerTable levels base (subscript va 39) < 2 ^ 52 := by
    rw [directory] at hbelow
    omega
  obtain ⟨hpresent, hwritable, -⟩ := tableEntry_bits hpointerTable
  rw [if_pos hi] at hpml4
  simp only [hpml4, hpresent, hwritable, tableEntry_address hpointerTable hbelow', Bool.not_true, Bool.true_and,
    Bool.false_eq_true, if_false]
  by_cases hj : subscript va 30 < 2 ^ levels.pdpteBitsNum
  swap
  · rw [if_neg hj] at hpointer
    rw [if_neg fun hlt => hj (hcovered.2 hlt).2.1, hpointer, isPresent_zero]
    rfl
  rw [if_pos hj] at hpointer
  have hentry := h.directories _ hi _ hj (subscript va 21) (subscript_lt va 21)
  have hbound := directory_bound hi hj base
  have hdirectory : directory levels base (subscript va 39) (subscript va 30) % 4096 = 0 := by
    rw [directory]
    omega
  obtain ⟨hpresent', hwritable', hlarge'⟩ := tableEntry_bits hdirectory
  simp only [hpointer, hpresent', hwritable', hlarge', tableEntry_address hdirectory (by omega), Bool.not_true,
    Bool.true_and, Bool.false_eq_true, if_false]
  by_cases hlow : subscript va 39 = 0 ∧ subscript va 30 = 0 ∧ subscript va 21 = 0
  · -- the first two megabytes have a table of their own
    have hpageTable : (base + pageNum2M levels * 4096) % 4096 = 0 := by omega
    obtain ⟨hpresent'', hwritable'', hlarge''⟩ := tableEntry_bits hpageTable
    have hpte := h.pageTable (subscript va 12) (subscript_lt va 12)
    obtain ⟨hpresentPage, hwritablePage, -⟩ :=
      tableEntry_bits (show 4096 * subscript va 12 % 4096 = 0 from Nat.mul_mod_right ..)
    have hpage : 4096 * subscript va 12 < 2 ^ 52 := by
      have hlt := subscript_lt va 12
      omega
    have hsmall : va < 2 ^ 21 := by
      obtain ⟨h39, h30, h21⟩ := hlow
      rw [subscript] at h39 h30 h21
      omega
    have hwidth : va < 2 ^ size := Nat.lt_of_lt_of_le hsmall (Nat.pow_le_pow_right (by decide) (by have := hlevels.size; omega))
    rw [if_pos hlow] at hentry
    simp only [hentry, hpresent'', hwritable'', hlarge'', tableEntry_address hpageTable (by omega), hpte, hpresentPage,
      hwritablePage, tableEntry_address (Nat.mul_mod_right ..) hpage, Bool.not_true, Bool.true_and, Bool.false_eq_true,
      if_false, if_pos hwidth, Option.some.injEq, Mapping.mk.injEq, and_true]
    rw [subscript]
    omega
  · rw [if_neg hlow] at hentry
    by_cases hk : subscript va 21 < 2 ^ levels.pdeBitsNum
    · have hlt : va < 2 ^ size := hcovered.1 ⟨hi, hj, hk⟩
      rw [if_pos hk, pageNumber_eq hlevels hva hlt] at hentry
      have hpage : 2 ^ 21 * (va / 2 ^ 21) % 2 ^ 21 = 0 := Nat.mul_mod_right ..
      obtain ⟨hpresent'', hwritable'', hlarge''⟩ := pageEntry2M_bits hpage
      simp only [hentry, hpresent'', hwritable'', hlarge'', pageEntry2M_address hpage (by omega), Bool.not_true,
        Bool.true_and, Bool.false_eq_true, if_false, if_true, if_pos hlt, Option.some.injEq, Mapping.mk.injEq, and_true]
      exact Nat.div_add_mod va (2 ^ 21)
    · rw [if_neg hk] at hentry
      rw [if_neg fun hlt => hk (hcovered.2 hlt).2.2, hentry, isPresent_zero]
      rfl

/-! ### The tables that `PreparePageTable` leaves -/

/-- Only the pages of the tables are written. -/
theorem tables_others (hpde : 2 ^ levels.pdeBitsNum ≤ 512) (hpdpte : 2 ^ levels.pdpteBitsNum ≤ 512)
    (hpml4 : 2 ^ levels.pml4BitsNum ≤ 512) (halign : base % 4096 = 0) {a : Nat}
    (ha : a < base ∨ base + allocation levels ≤ a) :
    x64Create4KPageTables levels base (x64Create2MPageTables levels base words) a = words a := by
  have hfilled : TablesFilled _ _ ⟨words, base, 0⟩ _ _ := tablesFilled levels hpde hpdpte ⟨words, base, 0⟩ hpml4
  obtain ⟨-, -, hothers⟩ :=
    x64Create4KPageTables_apply levels halign (x64Create2MPageTables levels base words)
  have hthree := three_le_pageNum2M levels
  have hsize : allocation levels = pageNum2M levels * 4096 + 4096 := Nat.succ_mul ..
  rw [hothers a (by omega) fun m hm => by omega]
  apply hfilled.others a
  · intro m hm
    show a ≠ base + 8 * m
    omega
  · intro m hm j hj
    have hle := le_pointerTable levels base m
    have hbound := directory_bound hm (Nat.two_pow_pos levels.pdpteBitsNum) base
    rw [directory] at hbound
    show a ≠ pointerTable levels base m + 8 * j
    omega
  · intro m hm j hj k hk
    have hle := le_pointerTable levels base m
    have hbound := directory_bound hm hj base
    rw [directory] at hbound
    show a ≠ pointerTable levels base m + 4096 * (j + 1) + 8 * k
    omega

theorem preparePageTable_eq_tables {words' : Words} {top size : Nat}
    (h : preparePageTable words top size = .tables words' base) :
    (levelsOf size).pml4BitsNum ≤ 9 ∧ base + allocation (levelsOf size) = top ∧ 128 * 0x100000 ≤ base ∧
      words' = x64Create4KPageTables (levelsOf size) base
        (x64Create2MPageTables (levelsOf size) base (zeroMem words base (allocation (levelsOf size)))) := by
  rw [preparePageTable] at h
  by_cases hlevels : 9 < (levelsOf size).pml4BitsNum
  · rw [if_pos hlevels] at h
    cases h
  rw [if_neg hlevels] at h
  by_cases hroom : top < allocation (levelsOf size) + 128 * 0x100000
  · rw [if_pos hroom] at h
    cases h
  rw [if_neg hroom] at h
  obtain ⟨rfl, rfl⟩ := Prepared.tables.inj h
  generalize allocation (levelsOf size) = pages at hroom ⊢
  refine ⟨Nat.le_of_not_lt hlevels, Nat.sub_add_cancel ?_, Nat.le_sub_of_add_le ?_, rfl⟩ <;> omega

/-- When `PreparePageTable` returns, the processor maps each address below the width to itself and no address above it,
and memory outside the tables, all below the top, is as it was. -/
theorem preparePageTable_identity {words' : Words} {top size : Nat} (hsize : size < 256) (halign : top % 4096 = 0)
    (htop : top ≤ 2 ^ 52) (h : preparePageTable words top size = .tables words' base) :
    (∀ va < 2 ^ 48, translate words' base va = if va < 2 ^ size then some ⟨va, true⟩ else none) ∧
      128 * 0x100000 ≤ base ∧ base < top ∧ ∀ a, a < base ∨ top ≤ a → words' a = words a := by
  obtain ⟨hle, rfl, hbase, hwords⟩ := preparePageTable_eq_tables h
  have hlevels := levelsOf_of hsize hle
  have hpower : ∀ {bits : Nat}, bits ≤ 9 → 2 ^ bits ≤ 512 := fun hbits =>
    Nat.pow_le_pow_right (by decide) hbits
  have hbits := hlevels.pml4
  have hpages : allocation (levelsOf size) = (pageNum2M (levelsOf size) + 1) * 4096 := rfl
  have hbaseAlign : base % 4096 = 0 := by omega
  rw [hwords]
  refine ⟨fun va hva => ?_, hbase, by omega, fun a ha => ?_⟩
  · apply Tables.translate_eq _ hlevels hbaseAlign htop hva
    apply tables_filled (hpower hlevels.pde) (hpower hlevels.pdpte) (hpower hlevels.pml4) hbaseAlign
    intro a hlow hhigh
    rw [zeroMem, if_pos ⟨hlow, hhigh⟩]
  · rw [tables_others (hpower hlevels.pde) (hpower hlevels.pdpte) (hpower hlevels.pml4) hbaseAlign ha, zeroMem,
      if_neg (by omega)]

theorem preparePageTable_identity_of_width : ∃ words', preparePageTable (fun _ => 0) 0x3FE00000 36 =
    .tables words' 0x3FDBD000 ∧ translate words' 0x3FDBD000 0xB8000 = some ⟨0xB8000, true⟩ ∧
      translate words' 0x3FDBD000 (2 ^ 36) = none := by
  have hlevels : levelsOf 36 = ⟨0, 6, 9⟩ := by decide
  have hsize : allocation (levelsOf 36) = 0x43000 := by rw [hlevels]; decide
  obtain ⟨words', htables⟩ : ∃ words', preparePageTable (fun _ => 0) 0x3FE00000 36 = .tables words' 0x3FDBD000 := by
    rw [preparePageTable, if_neg (by rw [hlevels]; decide), if_neg (by rw [hsize]; decide), hsize]
    exact ⟨_, rfl⟩
  have hidentity := preparePageTable_identity (by decide) (by decide) (by decide) htables
  refine ⟨words', htables, (hidentity.1 0xB8000 (by decide)).trans ?_, (hidentity.1 (2 ^ 36) (by decide)).trans ?_⟩
  · exact if_pos (by decide)
  · exact if_neg (by decide)

end BareBoot.Paging
