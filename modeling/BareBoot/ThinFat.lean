import BareBoot.Block
import BareBoot.KextSearch

/-! `ThinFatFile` of `kext_inject.c`, with the places of the words it reads. -/

namespace BareBoot.Kext

open Plist

def fatMagic : Nat := 0xcafebabe
def fatCigam : Nat := 0xbebafeca
def thinIA32 : Nat := 0xfeedface
def thinX64 : Nat := 0xfeedfacf

def cpuTypeI386 : Nat := 7
def cpuTypeX86_64 : Nat := 0x01000007

def swapBytes32 (x : Nat) : Nat :=
  x % 256 * 2 ^ 24 + x / 2 ^ 8 % 256 * 2 ^ 16 + x / 2 ^ 16 % 256 * 2 ^ 8 + x / 2 ^ 24 % 256

inductive ThinStatus where
  | success
  | notFound
  deriving DecidableEq

/-- The status, what stands in `*binary` and `*length` afterwards, and where words have been read. -/
structure Thinned where
  status : ThinStatus
  binary : Nat
  length : Option Nat
  reads : List Nat

/-- A field of a `FAT_ARCH`. -/
def archField (memory : Memory) (swapped : Bool) (fap off : Nat) : Nat :=
  if swapped then swapBytes32 (wordAt memory 4 (fap + off)) else wordAt memory 4 (fap + off)

/-- The loop over the table: the offset and the size of the slice. -/
def findArch (memory : Memory) (swapped : Bool) (archCpuType : Nat) : Nat → Nat → Option (Nat × Nat) × List Nat
  | 0, _ => (none, [])
  | nfat + 1, fap =>
      let fields := [fap, fap + 8, fap + 12]
      if archField memory swapped fap 0 = archCpuType then
        (some (archField memory swapped fap 8, archField memory swapped fap 12), fields)
      else
        let rest := findArch memory swapped archCpuType nfat (fap + 20)
        (rest.1, fields ++ rest.2)

/-- What follows the switch, for a universal file. -/
def thinUniversal (memory : Memory) (swapped : Bool) (archCpuType nfat binary : Nat) (length : Option Nat) : Thinned :=
  let found := findArch memory swapped archCpuType nfat (binary + 8)
  let slice := found.1.getD (0, 0)
  ⟨.success, binary + slice.1, length.map fun _ => slice.2, binary :: (binary + 4) :: found.2⟩

/-- No length stands for a `NULL` pointer to it. -/
def thinFatFile (memory : Memory) (binary : Nat) (length : Option Nat) (archCpuType : Nat) : Thinned :=
  let magic := wordAt memory 4 binary
  let thin := fun cpuType => ⟨if archCpuType = cpuType then .success else .notFound, binary, length, [binary]⟩
  if magic = fatMagic then thinUniversal memory false archCpuType (wordAt memory 4 (binary + 4)) binary length
  else if magic = fatCigam then
    thinUniversal memory true archCpuType (swapBytes32 (wordAt memory 4 (binary + 4))) binary length
  else if magic = thinX64 then thin cpuTypeX86_64
  else if magic = thinIA32 then thin cpuTypeI386
  else ⟨.notFound, binary, length, [binary]⟩

/-! ### Slices -/

/-- The CPU type in the header of a Mach-O file, which is in either byte order. -/
def machOCpuType (memory : Memory) (a : Nat) : Option Nat :=
  let magic := wordAt memory 4 a
  if magic = thinIA32 ∨ magic = thinX64 then some (wordAt memory 4 (a + 4))
  else if swapBytes32 magic = thinIA32 ∨ swapBytes32 magic = thinX64 then some (swapBytes32 (wordAt memory 4 (a + 4)))
  else none

/-- A Mach-O file of that type, long enough for its type to be in it. -/
def IsMachO (memory : Memory) (cpuType a size : Nat) : Prop := 8 ≤ size ∧ machOCpuType memory a = some cpuType

/-- The number of slices and the byte order of a universal file. -/
def universal (memory : Memory) (binary : Nat) : Option (Bool × Nat) :=
  let magic := wordAt memory 4 binary
  if magic = fatMagic then some (false, wordAt memory 4 (binary + 4))
  else if magic = fatCigam then some (true, swapBytes32 (wordAt memory 4 (binary + 4)))
  else none

/-- The slice at an index of the table is in the file and is of that type. -/
structure SliceAt (memory : Memory) (cpuType binary length : Nat) (swapped : Bool) (i : Nat) : Prop where
  inside : archField memory swapped (binary + 8 + 20 * i) 8 + archField memory swapped (binary + 8 + 20 * i) 12 ≤ length
  machO : IsMachO memory cpuType (binary + archField memory swapped (binary + 8 + 20 * i) 8)
    (archField memory swapped (binary + 8 + 20 * i) 12)

/-- The file is a Mach-O file of that type, or it is universal and has one. -/
def HasSlice (memory : Memory) (cpuType binary length : Nat) : Prop :=
  IsMachO memory cpuType binary length ∨
    ∃ swapped nfat, universal memory binary = some (swapped, nfat) ∧ ∃ i < nfat, SliceAt memory cpuType binary length swapped i

/-- The call gives a slice of that type or an error, an error where there is none, and reads in the file only. -/
structure Thins (memory : Memory) (cpuType binary length : Nat) : Prop where
  sound : (thinFatFile memory binary (some length) cpuType).status = .success → ∃ size,
    (thinFatFile memory binary (some length) cpuType).length = some size ∧
      binary ≤ (thinFatFile memory binary (some length) cpuType).binary ∧
      (thinFatFile memory binary (some length) cpuType).binary + size ≤ binary + length ∧
      IsMachO memory cpuType (thinFatFile memory binary (some length) cpuType).binary size
  missing : ¬ HasSlice memory cpuType binary length → (thinFatFile memory binary (some length) cpuType).status = .notFound
  reads : ∀ a ∈ (thinFatFile memory binary (some length) cpuType).reads, binary ≤ a ∧ a + 4 ≤ binary + length

/-- The first entry of the table for that type is in the file, and so is its slice, which is of that type. -/
structure FirstArch (memory : Memory) (cpuType binary length : Nat) (swapped : Bool) (nfat i : Nat) : Prop where
  listed : i < nfat
  named : archField memory swapped (binary + 8 + 20 * i) 0 = cpuType
  first : ∀ j < i, archField memory swapped (binary + 8 + 20 * j) 0 ≠ cpuType
  table : 24 + 20 * i ≤ length
  slice : SliceAt memory cpuType binary length swapped i

/-- A file whose magic can be read; thin with the magic of the type asked for it says that type in its header, universal it
has a first entry of that type. -/
def Thinnable (memory : Memory) (cpuType binary length : Nat) : Prop :=
  4 ≤ length ∧
    match universal memory binary with
    | some (swapped, nfat) => ∃ i, FirstArch memory cpuType binary length swapped nfat i
    | none => (wordAt memory 4 binary = thinX64 ∧ cpuType = cpuTypeX86_64 ∨
        wordAt memory 4 binary = thinIA32 ∧ cpuType = cpuTypeI386) → IsMachO memory cpuType binary length

section Thin

variable {memory : Memory} {cpuType binary length : Nat} {swapped : Bool} {nfat fap : Nat}

/-- The loop stops at the first entry of that type, or runs over the table. -/
theorem findArch_cases (memory : Memory) (swapped : Bool) (cpuType nfat fap : Nat) :
    ((∀ i < nfat, archField memory swapped (fap + 20 * i) 0 ≠ cpuType) ∧
        (findArch memory swapped cpuType nfat fap).1 = none) ∨
      ∃ i < nfat, archField memory swapped (fap + 20 * i) 0 = cpuType ∧
        (∀ j < i, archField memory swapped (fap + 20 * j) 0 ≠ cpuType) ∧
        (findArch memory swapped cpuType nfat fap).1 =
          some (archField memory swapped (fap + 20 * i) 8, archField memory swapped (fap + 20 * i) 12) ∧
        fap + 20 * i + 12 ∈ (findArch memory swapped cpuType nfat fap).2 ∧
        ∀ a ∈ (findArch memory swapped cpuType nfat fap).2, fap ≤ a ∧ a ≤ fap + 20 * i + 12 := by
  induction nfat generalizing fap with
  | zero => exact Or.inl ⟨fun i hi => absurd hi (Nat.not_lt_zero i), rfl⟩
  | succ nfat ih =>
      rw [findArch]
      by_cases hnamed : archField memory swapped fap 0 = cpuType
      · right
        refine ⟨0, Nat.succ_pos _, hnamed, fun j hj => absurd hj (Nat.not_lt_zero j), ?_⟩
        dsimp only
        rw [if_pos hnamed]
        refine ⟨rfl, by simp, ?_⟩
        intro a ha
        simp only [List.mem_cons, List.not_mem_nil, or_false] at ha
        omega
      · dsimp only
        rw [if_neg hnamed]
        have hat : ∀ i, fap + 20 + 20 * i = fap + 20 * (i + 1) := fun i => by omega
        rcases ih (fap + 20) with ⟨hnone, hrest⟩ | ⟨i, hi, hhere, hbefore, hrest, hlast, hreads⟩
        · left
          refine ⟨?_, hrest⟩
          intro i hi
          cases i with
          | zero => exact hnamed
          | succ i =>
              rw [← hat]
              exact hnone i (Nat.lt_of_succ_lt_succ hi)
        · right
          rw [hat] at hhere hrest hlast
          refine ⟨i + 1, Nat.succ_lt_succ hi, hhere, ?_, hrest, List.mem_append_right _ hlast, ?_⟩
          · intro j hj
            cases j with
            | zero => exact hnamed
            | succ j =>
                rw [← hat]
                exact hbefore j (Nat.lt_of_succ_lt_succ hj)
          · intro a ha
            rcases List.mem_append.mp ha with hhead | htail
            · simp only [List.mem_cons, List.not_mem_nil, or_false] at hhead
              omega
            · have := hreads a htail
              omega

/-- A universal file is thinned as asked exactly when the first entry of the type is good. -/
theorem thinUniversal_iff (huniversal : universal memory binary = some (swapped, nfat))
    (hrun : thinFatFile memory binary (some length) cpuType =
      thinUniversal memory swapped cpuType nfat binary (some length)) :
    Thins memory cpuType binary length ↔ 4 ≤ length ∧ ∃ i, FirstArch memory cpuType binary length swapped nfat i := by
  constructor
  · intro h
    obtain ⟨size, hsize, -, hinside, hmachO⟩ := h.sound (by rw [hrun]; rfl)
    have hreads := h.reads
    rw [hrun] at hsize hinside hmachO hreads
    simp only [thinUniversal, Option.map_some, Option.some_inj] at hsize hinside hmachO hreads
    have hmagic := hreads binary List.mem_cons_self
    refine ⟨by omega, ?_⟩
    rcases findArch_cases memory swapped cpuType nfat (binary + 8) with ⟨-, hnone⟩ | ⟨i, hi, hnamed, hbefore, hfound, hlast, -⟩
    · rw [hnone] at hsize
      obtain rfl : size = 0 := hsize.symm
      exact absurd hmachO.1 (by decide)
    · rw [hfound, Option.getD_some] at hsize hinside hmachO
      dsimp only at hsize hinside hmachO
      have hentry := hreads _ (List.mem_cons_of_mem _ (List.mem_cons_of_mem _ hlast))
      refine ⟨i, hi, hnamed, hbefore, by omega, by omega, ?_⟩
      rw [hsize]
      exact hmachO
  · rintro ⟨-, i, hfirst⟩
    have htable := hfirst.table
    have hinside := hfirst.slice.inside
    rcases findArch_cases memory swapped cpuType nfat (binary + 8) with ⟨hnone, -⟩ | ⟨j, hj, hnamed, hbefore, hfound, -, hreads⟩
    · exact absurd hfirst.named (hnone i hfirst.listed)
    · obtain rfl : i = j := by
        rcases Nat.lt_trichotomy i j with hlt | heq | hgt
        · exact absurd hfirst.named (hbefore i hlt)
        · exact heq
        · exact absurd hnamed (hfirst.first j hgt)
      constructor
      · intro _
        rw [hrun]
        simp only [thinUniversal, hfound, Option.getD_some, Option.map_some]
        exact ⟨_, rfl, by omega, by omega, hfirst.slice.machO⟩
      · intro hmissing
        exact absurd (Or.inr ⟨swapped, nfat, huniversal, i, hj, hfirst.slice⟩) hmissing
      · intro a ha
        rw [hrun] at ha
        simp only [thinUniversal, List.mem_cons] at ha
        rcases ha with rfl | rfl | ha
        · omega
        · omega
        · have := hreads a ha
          omega

/-- The slice asked for, or an error, for files of all kinds. -/
theorem thinFatFile_iff (memory : Memory) (cpuType binary length : Nat) :
    Thins memory cpuType binary length ↔ Thinnable memory cpuType binary length := by
  unfold Thinnable
  cases huniversal : universal memory binary with
  | some format =>
      obtain ⟨swapped, nfat⟩ := format
      apply thinUniversal_iff huniversal
      unfold universal at huniversal
      unfold thinFatFile
      dsimp only at huniversal ⊢
      split_ifs at huniversal with hmagic hcigam
      · obtain ⟨rfl, rfl⟩ := Prod.mk.inj (Option.some_inj.mp huniversal)
        rw [if_pos hmagic]
      · obtain ⟨rfl, rfl⟩ := Prod.mk.inj (Option.some_inj.mp huniversal)
        rw [if_neg hmagic, if_pos hcigam]
  | none =>
      -- nothing but the magic is read, and nothing is changed
      obtain ⟨hrun, hstatus⟩ : (∃ status, thinFatFile memory binary (some length) cpuType =
          ⟨status, binary, some length, [binary]⟩) ∧
          ((thinFatFile memory binary (some length) cpuType).status = .success ↔
            (wordAt memory 4 binary = thinX64 ∧ cpuType = cpuTypeX86_64 ∨
              wordAt memory 4 binary = thinIA32 ∧ cpuType = cpuTypeI386)) := by
        unfold universal at huniversal
        dsimp only at huniversal
        split_ifs at huniversal with hmagic hcigam
        unfold thinFatFile
        dsimp only
        rw [if_neg hmagic, if_neg hcigam]
        by_cases hx64 : wordAt memory 4 binary = thinX64
        · have hne : wordAt memory 4 binary ≠ thinIA32 := by
            rw [hx64]
            decide
          rw [if_pos hx64]
          refine ⟨⟨_, rfl⟩, ?_⟩
          by_cases hcpu : cpuType = cpuTypeX86_64 <;> simp [hx64, hcpu, thinX64, thinIA32]
        · rw [if_neg hx64]
          by_cases hia32 : wordAt memory 4 binary = thinIA32
          · rw [if_pos hia32]
            refine ⟨⟨_, rfl⟩, ?_⟩
            by_cases hcpu : cpuType = cpuTypeI386 <;> simp [hia32, hcpu, thinX64, thinIA32]
          · rw [if_neg hia32]
            exact ⟨⟨_, rfl⟩, by simp [hx64, hia32]⟩
      obtain ⟨status, hrun⟩ := hrun
      constructor
      · intro h
        have hmagic := h.reads binary (by rw [hrun]; exact List.mem_cons_self)
        refine ⟨by omega, ?_⟩
        intro hthin
        obtain ⟨size, hsize, -, -, hmachO⟩ := h.sound (hstatus.mpr hthin)
        rw [hrun] at hsize hmachO
        obtain rfl := Option.some_inj.mp hsize
        exact hmachO
      · rintro ⟨hlong, hthin⟩
        constructor
        · intro hsuccess
          have hmachO := hthin (hstatus.mp hsuccess)
          rw [hrun]
          exact ⟨length, rfl, Nat.le_refl _, Nat.le_refl _, hmachO⟩
        · intro hmissing
          cases hresult : (thinFatFile memory binary (some length) cpuType).status with
          | success => exact absurd (Or.inl (hthin (hstatus.mp hresult))) hmissing
          | notFound => rfl
        · intro a ha
          rw [hrun] at ha
          obtain rfl := List.mem_singleton.mp ha
          omega

end Thin

/-- A universal file with one slice, of 32 bytes, for the 64-bit architecture. -/
def universalFile : Bytes :=
  [0xca, 0xfe, 0xba, 0xbe, 0, 0, 0, 1, 1, 0, 0, 7, 0, 0, 0, 3, 0, 0, 0, 28, 0, 0, 0, 32, 0, 0, 0, 0,
    0xcf, 0xfa, 0xed, 0xfe, 7, 0, 0, 1] ++ List.replicate 24 0

def universalMemory : Memory := store (fun _ => 0) 4096 universalFile

theorem universalFile_thins : Thins universalMemory cpuTypeX86_64 4096 60 := by
  have hfirst : FirstArch universalMemory cpuTypeX86_64 4096 60 true 1 0 :=
    ⟨by decide, by decide, fun j hj => absurd hj (Nat.not_lt_zero j), by decide, by decide, by decide, by decide⟩
  have hformat : universal universalMemory 4096 = some (true, 1) := by decide
  refine (thinFatFile_iff universalMemory cpuTypeX86_64 4096 60).2 ⟨by decide, ?_⟩
  rw [hformat]
  exact ⟨0, hfirst⟩

/-- For the 32-bit architecture, which it does not have, the same file gives no error. -/
theorem universalFile_missing : ¬ Thins universalMemory cpuTypeI386 4096 60 := by
  intro h
  obtain ⟨size, hsize, -, -, hmachO⟩ := h.sound (by decide)
  have hzero : (thinFatFile universalMemory 4096 (some 60) cpuTypeI386).length = some 0 := by decide
  rw [hzero] at hsize
  obtain rfl := Option.some_inj.mp hsize
  exact absurd hmachO.1 (by decide)

end BareBoot.Kext
