import BareBoot.EfiLoader
import BareBoot.Paging

/-! The memory that DxeIpl sets up. From the table of the loader it reports the free memory in hand-off blocks, and
below the end of what is free above one megabyte it puts the variable storage, the stack, the page tables, the table
itself and the blocks. -/

namespace BareBoot.HobMemory

open Regions MemoryMap Paging

structure Resource where
  physicalStart : Nat
  resourceLength : Nat
  deriving DecidableEq, Repr

/-- The fields of `HOB_TEMPLATE` that say where something is. -/
structure Hob where
  bfvResource : Resource
  memoryFreeUnder1MB : Resource
  memoryAbove1MB : Resource
  memoryAbove4GB : Resource
  memoryDxeCore : Resource
  nvStorageFvResource : Resource
  nvFtwFvResource : Resource
  stack : Resource
  memoryAllocation : Resource
  memDescCount : Nat
  memDesc : Nat
  efiMemoryTop : Nat
  efiMemoryBottom : Nat
  efiFreeMemoryTop : Nat
  efiFreeMemoryBottom : Nat
  deriving DecidableEq, Repr

def NV_STORAGE_FVB_SIZE : Nat := 0x10000
def NV_FTW_FVB_SIZE : Nat := 0x20000
def CONSUMED_MEMORY : Nat := 0x100000 * 80

def hobTemplate : Hob :=
  ⟨⟨0, 0⟩, ⟨0, 0⟩, ⟨0, 0⟩, ⟨0, 0⟩, ⟨0, 0⟩, ⟨0, NV_STORAGE_FVB_SIZE⟩, ⟨0, NV_FTW_FVB_SIZE⟩, ⟨0, 0⟩, ⟨0, 0⟩, 0, 0, 0,
    0, 0, 0⟩

def sub64 (x y : Nat) : Nat := u64 (x + 2 ^ 64 - y)

/-- `x & ~EFI_PAGE_MASK`. -/
def pageOf (x : Nat) : Nat := x / 4096 * 4096

/-! ### Free memory -/

def size64 (d : Descriptor) : Nat := u64 (d.numberOfPages * 4096)

/-- The descriptor begins where the memory ends. -/
def extend (d : Descriptor) (r : Resource) : Resource :=
  if u64 (r.physicalStart + r.resourceLength) = d.physicalStart then
    { r with resourceLength := u64 (r.resourceLength + size64 d) }
  else r

def add1MB (d : Descriptor) (r : Resource) : Resource :=
  if r.physicalStart = 0 then ⟨d.physicalStart, size64 d⟩ else extend d r

def add4GB (d : Descriptor) (r : Resource) : Resource :=
  extend d (if r.physicalStart = 0 then ⟨d.physicalStart, size64 d⟩ else r)

/-- The loop of `PrepareHobMemory`. -/
def freeMemory : List Descriptor → Resource × Resource → Resource × Resource
  | [], r => r
  | d :: desc, (above1MB, above4GB) =>
      if d.physicalStart < 0x100000 then freeMemory desc (above1MB, above4GB)
      else
        let above1MB := if d.type = .conventionalMemory then add1MB d above1MB else above1MB
        if d.type = .reservedMemoryType ∨ MemoryType.acpiReclaimMemory.ctorIdx ≤ d.type.ctorIdx then
          freeMemory desc (above1MB, above4GB)
        else if d.type = .runtimeServicesCode ∨ d.type = .runtimeServicesData then (above1MB, above4GB)
        else if 0x100000000 ≤ d.physicalStart ∧ d.type = .conventionalMemory then
          freeMemory desc (above1MB, add4GB d above4GB)
        else freeMemory desc (above1MB, above4GB)

/-- `EbdaAddress`, from the word at `EBDA_VALUE_ADDRESS`. -/
def ebdaAddress (ebda : Nat) : Nat := if ebda * 16 < 0x9A000 ∨ 0x9F800 < ebda * 16 then 0x9F800 else ebda * 16

def prepareHobMemory (ebda : Nat) (desc : List Descriptor) (hob : Hob) : Hob × Nat :=
  let above := freeMemory desc (⟨0, 0⟩, ⟨0, 0⟩)
  ({ hob with
      memoryFreeUnder1MB := ⟨0x86000, ebdaAddress ebda - 0x86000⟩
      memoryAbove1MB := above.1
      memoryAbove4GB := above.2 }, u64 (above.1.physicalStart + above.1.resourceLength))

/-! ### What is put below it -/

def prepareHobBfv (bfv bfvLength : Nat) (hob : Hob) : Hob := { hob with bfvResource := ⟨bfv, bfvLength⟩ }

def prepareHobNvStorage (nvStorageTop : Nat) (hob : Hob) : Hob × Nat :=
  let storageFvbBase := pageOf (sub64 (sub64 nvStorageTop NV_STORAGE_FVB_SIZE) NV_FTW_FVB_SIZE)
  let ftwFvbBase := u64 (storageFvbBase + NV_STORAGE_FVB_SIZE)
  ({ hob with
      nvStorageFvResource := { hob.nvStorageFvResource with physicalStart := storageFvbBase }
      nvFtwFvResource := { hob.nvFtwFvResource with physicalStart := ftwFvbBase } }, storageFvbBase)

def prepareHobStack (stackTop : Nat) (hob : Hob) : Hob × Nat :=
  let stackBottom := sub64 stackTop (0x20 * 4096)
  ({ hob with stack := ⟨stackBottom, 0x20 * 4096⟩ }, stackBottom)

def prepareHobMemoryDescriptor (memoryDescriptorTop memDescCount : Nat) (hob : Hob) : Hob × Nat :=
  let memDesc := pageOf (sub64 memoryDescriptorTop (memDescCount * 40))
  ({ hob with memDescCount := memDescCount, memDesc := memDesc }, memDesc)

/-- `sizeofHob` is the size of `HOB_TEMPLATE`. -/
def prepareHobPhit (sizeofHob memoryTop freeMemoryTop : Nat) (hob : Hob) : Hob :=
  let efiMemoryBottom := sub64 memoryTop CONSUMED_MEMORY
  { hob with
    efiMemoryTop := memoryTop
    efiMemoryBottom := efiMemoryBottom
    efiFreeMemoryTop := freeMemoryTop
    efiFreeMemoryBottom := u64 (efiMemoryBottom + sizeofHob) }

def prepareHobDxeCore (dxeCoreImageBase dxeCoreLength : Nat) (hob : Hob) : Hob :=
  { hob with memoryDxeCore := ⟨dxeCoreImageBase, dxeCoreLength⟩ }

def completeHobGeneration (hob : Hob) : Hob :=
  let hob := { hob with
    memoryAllocation := ⟨hob.efiFreeMemoryTop, sub64 hob.stack.physicalStart hob.efiFreeMemoryTop⟩ }
  if hob.efiMemoryTop < u64 (hob.memoryAbove1MB.physicalStart + hob.memoryAbove1MB.resourceLength) then
    { hob with memoryAbove1MB :=
        { hob.memoryAbove1MB with
          resourceLength := sub64 hob.efiMemoryTop hob.memoryAbove1MB.physicalStart } }
  else hob

/-- `DxeInit` behind the page tables. -/
def finishHob (sizeofHob : Nat) (handoff : Handoff) (stackTop pageTableBase : Nat) (hob : Hob) : Hob :=
  let memoryDescriptor := prepareHobMemoryDescriptor pageTableBase handoff.memDesc.length hob
  let hob := prepareHobPhit sizeofHob stackTop memoryDescriptor.2 memoryDescriptor.1
  completeHobGeneration (prepareHobDxeCore handoff.dxeCoreImageBase
    (sub64 (u64 (handoff.dxeIplImageBase + handoff.dxeIplImageSize)) handoff.dxeCoreImageBase) hob)

/-- `DxeInit` up to `EnterDxeMain`, with the page tables, or `none` where it ends in `CpuDeadLoop`. -/
def dxeInit (sizeofHob sizeOfMemorySpace ebda : Nat) (words : Words) (handoff : Handoff) :
    Option (Hob × Words × Nat) :=
  let memory := prepareHobMemory ebda handoff.memDesc (prepareHobBfv handoff.bfvBase handoff.bfvSize hobTemplate)
  let nvStorage := prepareHobNvStorage memory.2 memory.1
  let stackTop := nvStorage.2
  let stack := prepareHobStack stackTop nvStorage.1
  match preparePageTable words stack.2 sizeOfMemorySpace with
  | .null => some (finishHob sizeofHob handoff stackTop 0 stack.1, words, 0)
  | .deadLoop => none
  | .tables words pageTableBase =>
      some (finishHob sizeofHob handoff stackTop pageTableBase stack.1, words, pageTableBase)

/-! ### What is reported is free -/

def Resource.Covers (r : Resource) (a : Nat) : Prop := r.physicalStart ≤ a ∧ a < r.physicalStart + r.resourceLength

/-- Nothing, or free memory from `limit` on. -/
structure Free (desc : List Descriptor) (limit : Nat) (r : Resource) : Prop where
  range : r = ⟨0, 0⟩ ∨ limit ≤ r.physicalStart ∧ r.physicalStart + r.resourceLength < 2 ^ 64
  free : ∀ a, r.Covers a → ∃ d ∈ desc, d.type = .conventionalMemory ∧ d.region.Covers a

section Free

variable {desc : List Descriptor} {limit : Nat} {r : Resource} {d : Descriptor}

theorem Free.none (desc : List Descriptor) (limit : Nat) : Free desc limit ⟨0, 0⟩ :=
  ⟨Or.inl rfl, fun a ha => absurd ha.2 (Nat.not_lt_zero a)⟩

theorem size64_eq (h : d.Good) : size64 d = d.numberOfPages * 4096 := by
  obtain ⟨-, -, hlimit⟩ := h
  exact u64_of_lt (Nat.lt_of_le_of_lt (Nat.le_add_left ..) hlimit)

section Descriptor

variable (hgood : d.Good) (hd : d ∈ desc) (htype : d.type = .conventionalMemory)
include hgood hd htype

theorem free_descriptor (hlimit : limit ≤ d.physicalStart) : Free desc limit ⟨d.physicalStart, size64 d⟩ := by
  rw [size64_eq hgood]
  exact ⟨Or.inr ⟨hlimit, hgood.2.2⟩, fun a ha => ⟨d, hd, htype, ha⟩⟩

theorem Free.extend (h : Free desc limit r) (hr : limit ≤ r.physicalStart) (hpos : 0 < limit) :
    Free desc limit (extend d r) ∧ limit ≤ (HobMemory.extend d r).physicalStart := by
  have hrange : r.physicalStart + r.resourceLength < 2 ^ 64 := by
    rcases h.range with hzero | hrange
    · rw [hzero] at hr
      exact absurd hr (Nat.not_le_of_lt hpos)
    · exact hrange.2
  rw [HobMemory.extend, u64_of_lt hrange, size64_eq hgood]
  by_cases hnext : r.physicalStart + r.resourceLength = d.physicalStart
  · obtain ⟨-, -, hstop⟩ := hgood
    have hlength : r.physicalStart + (r.resourceLength + d.numberOfPages * 4096) < 2 ^ 64 := by
      rw [← Nat.add_assoc, hnext]
      exact hstop
    rw [if_pos hnext, u64_of_lt (Nat.lt_of_le_of_lt (Nat.le_add_left ..) hlength)]
    refine ⟨⟨Or.inr ⟨hr, hlength⟩, fun a ha => ?_⟩, hr⟩
    by_cases hold : a < d.physicalStart
    · exact h.free a ⟨ha.1, hnext ▸ hold⟩
    · refine ⟨d, hd, htype, Nat.le_of_not_lt hold, ?_⟩
      have hlast := ha.2
      dsimp only at hlast
      rwa [← Nat.add_assoc, hnext] at hlast
  · rw [if_neg hnext]
    exact ⟨h, hr⟩

theorem Free.add1MB (hlimit : limit ≤ d.physicalStart) (h : Free desc limit r) (hpos : 0 < limit) :
    Free desc limit (add1MB d r) := by
  rw [HobMemory.add1MB]
  by_cases hzero : r.physicalStart = 0
  · rw [if_pos hzero]
    exact free_descriptor hgood hd htype hlimit
  · rw [if_neg hzero]
    rcases h.range with rfl | hrange
    · exact absurd rfl hzero
    · exact (h.extend hgood hd htype hrange.1 hpos).1

theorem Free.add4GB (hlimit : limit ≤ d.physicalStart) (h : Free desc limit r) (hpos : 0 < limit) :
    Free desc limit (add4GB d r) := by
  rw [HobMemory.add4GB]
  by_cases hzero : r.physicalStart = 0
  · rw [if_pos hzero]
    exact ((free_descriptor hgood hd htype hlimit).extend hgood hd htype hlimit hpos).1
  · rw [if_neg hzero]
    rcases h.range with rfl | hrange
    · exact absurd rfl hzero
    · exact (h.extend hgood hd htype hrange.1 hpos).1

end Descriptor

/-- `PrepareHobMemory` reports only free memory. -/
theorem freeMemory_free (hgood : ∀ d ∈ desc, d.Good) {rest : List Descriptor} (hrest : ∀ d ∈ rest, d ∈ desc)
    {above1MB above4GB : Resource} (h : Free desc 0x100000 above1MB) (h' : Free desc 0x100000000 above4GB) :
    Free desc 0x100000 (freeMemory rest (above1MB, above4GB)).1 ∧
      Free desc 0x100000000 (freeMemory rest (above1MB, above4GB)).2 := by
  induction rest generalizing above1MB above4GB with
  | nil => exact ⟨h, h'⟩
  | cons d rest ih =>
      obtain ⟨hd, hrest⟩ := List.forall_mem_cons.1 hrest
      rw [freeMemory]
      by_cases hlow : d.physicalStart < 0x100000
      · rw [if_pos hlow]
        exact ih hrest h h'
      rw [if_neg hlow]
      have hfirst : Free desc 0x100000
          (if d.type = .conventionalMemory then HobMemory.add1MB d above1MB else above1MB) := by
        by_cases htype : d.type = .conventionalMemory
        · rw [if_pos htype]
          exact Free.add1MB (hgood d hd) hd htype (Nat.le_of_not_lt hlow) h (by decide)
        · rw [if_neg htype]
          exact h
      dsimp only
      generalize (if d.type = .conventionalMemory then HobMemory.add1MB d above1MB else above1MB) = first at hfirst ⊢
      split_ifs with hreserved hruntime hhigh
      · exact ih hrest hfirst h'
      · exact ⟨hfirst, h'⟩
      · exact ih hrest hfirst (Free.add4GB (hgood d hd) hd hhigh.2 hhigh.1 h' (by decide))
      · exact ih hrest hfirst h'

end Free

/-! ### Where things are put -/

/-- What is free above one megabyte, and above four gigabytes. -/
def above1MB (handoff : Handoff) : Resource := (freeMemory handoff.memDesc (⟨0, 0⟩, ⟨0, 0⟩)).1
def above4GB (handoff : Handoff) : Resource := (freeMemory handoff.memDesc (⟨0, 0⟩, ⟨0, 0⟩)).2

/-- Where the variable storage is put below an address. -/
def nvStorageBelow (top : Nat) : Nat := pageOf (sub64 (sub64 top NV_STORAGE_FVB_SIZE) NV_FTW_FVB_SIZE)

theorem pageOf_le (x : Nat) : pageOf x ≤ x ∧ x < pageOf x + 4096 ∧ pageOf x % 4096 = 0 := by
  rw [pageOf]
  omega

theorem sub64_eq {x y : Nat} (hx : x < 2 ^ 64) (h : y ≤ x) : sub64 x y = x - y := by
  rw [sub64, u64]
  omega

theorem allocation_le {size : Nat} (hlow : 21 ≤ size) (hhigh : size ≤ 44) : allocation (levelsOf size) ≤ 67248128 := by
  interval_cases size <;> decide

theorem le_allocation {size : Nat} (hlow : 45 ≤ size) (hhigh : size ≤ 48) : 134488064 ≤ allocation (levelsOf size) := by
  interval_cases size <;> decide

theorem pml4BitsNum_le {size : Nat} (hlow : 21 ≤ size) (hhigh : size ≤ 48) : (levelsOf size).pml4BitsNum ≤ 9 := by
  interval_cases size <;> decide

/-- From the bottom upwards: the blocks, free memory, the table of the loader, the page tables, the stack and the
variable storage, all of it free memory above one megabyte. There is free memory left exactly up to a width of
addresses. -/
structure LaidOut (sizeofHob sizeOfMemorySpace : Nat) (handoff : Handoff) (hob : Hob) (pageTableBase : Nat) : Prop where
  efiMemoryBottom : (above1MB handoff).physicalStart ≤ hob.efiMemoryBottom
  consumed : hob.efiMemoryBottom + CONSUMED_MEMORY = hob.efiMemoryTop
  efiFreeMemoryBottom : hob.efiFreeMemoryBottom = hob.efiMemoryBottom + sizeofHob
  free : hob.efiFreeMemoryBottom ≤ hob.efiFreeMemoryTop ↔ sizeOfMemorySpace ≤ 44
  efiFreeMemoryTop : hob.efiFreeMemoryTop = hob.memDesc
  memDesc : hob.memDesc + handoff.memDesc.length * 40 ≤ pageTableBase
  pageTable : pageTableBase + allocation (levelsOf sizeOfMemorySpace) = hob.stack.physicalStart
  stack : hob.stack.physicalStart + hob.stack.resourceLength = hob.efiMemoryTop
  memoryAllocation : hob.memoryAllocation = ⟨hob.efiFreeMemoryTop, hob.stack.physicalStart - hob.efiFreeMemoryTop⟩
  nvStorage : hob.nvStorageFvResource = ⟨hob.efiMemoryTop, NV_STORAGE_FVB_SIZE⟩
  nvFtw : hob.nvFtwFvResource = ⟨hob.efiMemoryTop + NV_STORAGE_FVB_SIZE, NV_FTW_FVB_SIZE⟩
  top : hob.efiMemoryTop + NV_STORAGE_FVB_SIZE + NV_FTW_FVB_SIZE ≤
    (above1MB handoff).physicalStart + (above1MB handoff).resourceLength
  memoryAbove1MB : hob.memoryAbove1MB =
    ⟨(above1MB handoff).physicalStart, hob.efiMemoryTop - (above1MB handoff).physicalStart⟩

section DxeInit

variable {sizeofHob sizeOfMemorySpace ebda : Nat} {words words' : Words} {handoff : Handoff} {hob : Hob}
  {pageTableBase : Nat}

/-- The end of what is free above one megabyte. -/
def topOnDescriptor (handoff : Handoff) : Nat :=
  u64 ((above1MB handoff).physicalStart + (above1MB handoff).resourceLength)

/-- The blocks when the stack is prepared. -/
def stackHob (ebda : Nat) (handoff : Handoff) : Hob :=
  (prepareHobStack (nvStorageBelow (topOnDescriptor handoff)) (prepareHobNvStorage (topOnDescriptor handoff)
    (prepareHobMemory ebda handoff.memDesc (prepareHobBfv handoff.bfvBase handoff.bfvSize hobTemplate)).1).1).1

theorem prepareHobMemory_snd (hob : Hob) :
    (prepareHobMemory ebda handoff.memDesc hob).2 = topOnDescriptor handoff := rfl

theorem prepareHobNvStorage_snd (nvStorageTop : Nat) (hob : Hob) :
    (prepareHobNvStorage nvStorageTop hob).2 = nvStorageBelow nvStorageTop := rfl

theorem prepareHobStack_snd (stackTop : Nat) (hob : Hob) :
    (prepareHobStack stackTop hob).2 = sub64 stackTop (0x20 * 4096) := rfl

theorem dxeInit_tables (hwidth : (levelsOf sizeOfMemorySpace).pml4BitsNum ≤ 9)
    (h : dxeInit sizeofHob sizeOfMemorySpace ebda words handoff = some (hob, words', pageTableBase)) :
    preparePageTable words (sub64 (nvStorageBelow (topOnDescriptor handoff)) (0x20 * 4096)) sizeOfMemorySpace =
        .tables words' pageTableBase ∧
      hob = finishHob sizeofHob handoff (nvStorageBelow (topOnDescriptor handoff)) pageTableBase
        (stackHob ebda handoff) := by
  simp only [dxeInit, prepareHobMemory_snd, prepareHobNvStorage_snd, prepareHobStack_snd] at h
  cases hprepare : preparePageTable words (sub64 (nvStorageBelow (topOnDescriptor handoff)) (0x20 * 4096))
      sizeOfMemorySpace with
  | null =>
      rw [preparePageTable, if_neg (Nat.not_lt_of_le hwidth)] at hprepare
      split_ifs at hprepare
  | deadLoop =>
      rw [hprepare] at h
      cases h
  | tables words₁ base =>
      rw [hprepare] at h
      cases h
      exact ⟨rfl, rfl⟩

/-- The fields of the blocks when they are complete. -/
theorem finishHob_fields (sizeofHob ebda stackTop pageTableBase : Nat) (handoff : Handoff) :
    let hob := finishHob sizeofHob handoff stackTop pageTableBase
      (prepareHobStack stackTop (prepareHobNvStorage (topOnDescriptor handoff) (prepareHobMemory ebda handoff.memDesc
        (prepareHobBfv handoff.bfvBase handoff.bfvSize hobTemplate)).1).1).1
    hob.efiMemoryTop = stackTop ∧ hob.efiMemoryBottom = sub64 stackTop CONSUMED_MEMORY ∧
      hob.efiFreeMemoryTop = hob.memDesc ∧ hob.efiFreeMemoryBottom = u64 (hob.efiMemoryBottom + sizeofHob) ∧
      hob.memDesc = pageOf (sub64 pageTableBase (handoff.memDesc.length * 40)) ∧
      hob.stack = ⟨sub64 stackTop (0x20 * 4096), 0x20 * 4096⟩ ∧
      hob.nvStorageFvResource = ⟨nvStorageBelow (topOnDescriptor handoff), NV_STORAGE_FVB_SIZE⟩ ∧
      hob.nvFtwFvResource = ⟨u64 (nvStorageBelow (topOnDescriptor handoff) + NV_STORAGE_FVB_SIZE), NV_FTW_FVB_SIZE⟩ ∧
      hob.memoryAllocation = ⟨hob.efiFreeMemoryTop, sub64 hob.stack.physicalStart hob.efiFreeMemoryTop⟩ ∧
      hob.memoryAbove1MB =
        if stackTop < topOnDescriptor handoff then
          ⟨(above1MB handoff).physicalStart, sub64 stackTop (above1MB handoff).physicalStart⟩
        else above1MB handoff := by
  have hmemory : ∀ hob, (prepareHobMemory ebda handoff.memDesc hob).1.memoryAbove1MB = above1MB handoff := fun _ => rfl
  have htop : u64 ((above1MB handoff).physicalStart + (above1MB handoff).resourceLength) =
      topOnDescriptor handoff := rfl
  simp only [finishHob, prepareHobDxeCore, prepareHobPhit, prepareHobMemoryDescriptor, prepareHobStack,
    prepareHobNvStorage, completeHobGeneration, hmemory, htop]
  split_ifs with hlt
  · exact ⟨rfl, rfl, rfl, rfl, rfl, rfl, rfl, rfl, rfl, rfl⟩
  · exact ⟨rfl, rfl, rfl, rfl, rfl, rfl, rfl, rfl, rfl, rfl⟩

theorem finishHob_resources (sizeofHob ebda stackTop pageTableBase : Nat) (handoff : Handoff) :
    let hob := finishHob sizeofHob handoff stackTop pageTableBase
      (prepareHobStack stackTop (prepareHobNvStorage (topOnDescriptor handoff) (prepareHobMemory ebda handoff.memDesc
        (prepareHobBfv handoff.bfvBase handoff.bfvSize hobTemplate)).1).1).1
    hob.bfvResource = ⟨handoff.bfvBase, handoff.bfvSize⟩ ∧ hob.memoryAbove4GB = above4GB handoff ∧
      hob.memoryDxeCore = ⟨handoff.dxeCoreImageBase,
        sub64 (u64 (handoff.dxeIplImageBase + handoff.dxeIplImageSize)) handoff.dxeCoreImageBase⟩ ∧
      hob.memoryFreeUnder1MB = ⟨0x86000, ebdaAddress ebda - 0x86000⟩ := by
  have hmemory : ∀ hob, (prepareHobMemory ebda handoff.memDesc hob).1 = { hob with
      memoryFreeUnder1MB := ⟨0x86000, ebdaAddress ebda - 0x86000⟩
      memoryAbove1MB := above1MB handoff
      memoryAbove4GB := above4GB handoff } := fun _ => rfl
  simp only [finishHob, prepareHobDxeCore, prepareHobPhit, prepareHobMemoryDescriptor, prepareHobStack,
    prepareHobNvStorage, completeHobGeneration, hmemory, prepareHobBfv]
  split_ifs
  · exact ⟨rfl, rfl, rfl, rfl⟩
  · exact ⟨rfl, rfl, rfl, rfl⟩

theorem ebdaAddress_le (ebda : Nat) : ebdaAddress ebda ≤ 0x9F800 := by
  rw [ebdaAddress]
  split_ifs <;> omega

/-- With enough memory above one megabyte `DxeInit` lays everything out below the end of it. -/
theorem dxeInit_laidOut (hwidth : 21 ≤ sizeOfMemorySpace ∧ sizeOfMemorySpace ≤ 48) (hsizeof : sizeofHob ≤ 0x1000)
    (hcount : handoff.memDesc.length ≤ 64) (hlong : 81 * 0x100000 ≤ (above1MB handoff).resourceLength)
    (hbelow : (above1MB handoff).physicalStart + (above1MB handoff).resourceLength ≤ 0x100000000)
    (h : dxeInit sizeofHob sizeOfMemorySpace ebda words handoff = some (hob, words', pageTableBase)) :
    LaidOut sizeofHob sizeOfMemorySpace handoff hob pageTableBase ∧
      preparePageTable words hob.stack.physicalStart sizeOfMemorySpace = .tables words' pageTableBase := by
  obtain ⟨htables, rfl⟩ := dxeInit_tables (pml4BitsNum_le hwidth.1 hwidth.2) h
  obtain ⟨hmemoryTop, hmemoryBottom, hfreeTop, hfreeBottom, hmemDesc, hstack, hstorage, hftw, hallocation, habove⟩ :=
    finishHob_fields sizeofHob ebda (nvStorageBelow (topOnDescriptor handoff)) pageTableBase handoff
  rw [← stackHob] at hmemoryTop hmemoryBottom hfreeTop hfreeBottom hmemDesc hstack hstorage hftw hallocation habove
  generalize finishHob sizeofHob handoff (nvStorageBelow (topOnDescriptor handoff)) pageTableBase
    (stackHob ebda handoff) = hob at *
  have htop : topOnDescriptor handoff = (above1MB handoff).physicalStart + (above1MB handoff).resourceLength :=
    u64_of_lt (Nat.lt_of_le_of_lt hbelow (by decide))
  obtain ⟨hnv, hnvLow, hnvHigh⟩ : nvStorageBelow (topOnDescriptor handoff) % 4096 = 0 ∧
      nvStorageBelow (topOnDescriptor handoff) + 0x30000 ≤ topOnDescriptor handoff ∧
      topOnDescriptor handoff < nvStorageBelow (topOnDescriptor handoff) + 0x31000 := by
    have hstorageRoom : sub64 (topOnDescriptor handoff) 0x10000 = topOnDescriptor handoff - 0x10000 :=
      sub64_eq (by omega) (by omega)
    rw [nvStorageBelow, NV_STORAGE_FVB_SIZE, NV_FTW_FVB_SIZE, hstorageRoom, sub64_eq (by omega) (by omega)]
    obtain ⟨hle, hlt, halign⟩ := pageOf_le (topOnDescriptor handoff - 0x10000 - 0x20000)
    omega
  generalize nvStorageBelow (topOnDescriptor handoff) = nv at *
  have hnvLimit : nv < 2 ^ 64 := by omega
  have hstackBottom : sub64 nv (0x20 * 4096) = nv - 0x20000 := sub64_eq hnvLimit (by omega)
  have hbottom : sub64 nv CONSUMED_MEMORY = nv - 0x5000000 := sub64_eq hnvLimit (by rw [CONSUMED_MEMORY]; omega)
  obtain ⟨-, hpageTable, hroom, -⟩ := preparePageTable_eq_tables htables
  rw [hstackBottom] at hpageTable hstack
  have hdesc : sub64 pageTableBase (handoff.memDesc.length * 40) = pageTableBase - handoff.memDesc.length * 40 :=
    sub64_eq (by omega) (by omega)
  rw [hdesc] at hmemDesc
  rw [hmemoryBottom, hbottom, u64_of_lt (by omega)] at hfreeBottom
  rw [NV_STORAGE_FVB_SIZE, u64_of_lt (by omega)] at hftw
  obtain ⟨hdescLow, hdescHigh, -⟩ := pageOf_le (pageTableBase - handoff.memDesc.length * 40)
  rw [← hmemDesc] at hdescLow hdescHigh
  have hstackStart : hob.stack.physicalStart = nv - 0x20000 := by rw [hstack]
  refine ⟨⟨?_, ?_, ?_, ?_, hfreeTop, ?_, ?_, ?_, ?_, ?_, ?_, ?_, ?_⟩, ?_⟩
  · omega
  · rw [CONSUMED_MEMORY]
    omega
  · omega
  · rw [hfreeBottom, hfreeTop]
    constructor
    · intro hle
      by_contra hwide
      have hlarge := le_allocation (Nat.lt_of_not_le hwide) hwidth.2
      omega
    · intro hnarrow
      have hsmall := allocation_le hwidth.1 hnarrow
      omega
  · omega
  · rw [hstackStart]
    exact hpageTable
  · rw [hstack, hmemoryTop]
    dsimp only
    omega
  · rw [hallocation, sub64_eq (by omega) (by omega)]
  · rw [hstorage, hmemoryTop]
  · rw [hftw, hmemoryTop, NV_STORAGE_FVB_SIZE]
  · rw [hmemoryTop, NV_STORAGE_FVB_SIZE, NV_FTW_FVB_SIZE]
    omega
  · rw [habove, hmemoryTop, if_pos (by omega), sub64_eq hnvLimit (by omega)]
  · rw [hstackStart, ← hstackBottom]
    exact htables

end DxeInit

/-! ### The resources are apart -/

def Resource.Apart (r s : Resource) : Prop :=
  r.physicalStart + r.resourceLength ≤ s.physicalStart ∨ s.physicalStart + s.resourceLength ≤ r.physicalStart

/-- What is reported as physical memory or as a firmware device. -/
def Hob.resources (hob : Hob) : List Resource :=
  [hob.memoryFreeUnder1MB, hob.memoryAbove1MB, hob.nvStorageFvResource, hob.nvFtwFvResource, hob.memoryDxeCore,
    hob.bfvResource, hob.memoryAbove4GB]

/-- The order of what is reported: the loaded images are above the memory that is laid out or below it. -/
theorem resources_apart {ebda start top core bfv bfvSize : Nat} {above4GB : Resource} (hebda : ebda ≤ 0x9F800)
    (hstart : 0x100000 ≤ start) (htop : start ≤ top) (hcore : 0x100000 ≤ core ∧ core ≤ bfv)
    (hbfv : bfv + bfvSize ≤ 0x100000000)
    (hloaded : top + 0x30000 ≤ core ∨ bfv + bfvSize ≤ start ∧ top + 0x30000 ≤ 0x100000000)
    (hhigh : above4GB.physicalStart + above4GB.resourceLength = 0 ∨ 0x100000000 ≤ above4GB.physicalStart) :
    [⟨0x86000, ebda - 0x86000⟩, ⟨start, top - start⟩, ⟨top, 0x10000⟩, ⟨top + 0x10000, 0x20000⟩, ⟨core, bfv - core⟩,
      ⟨bfv, bfvSize⟩, above4GB].Pairwise Resource.Apart := by
  simp only [List.pairwise_cons, List.forall_mem_cons, List.Pairwise.nil, List.not_mem_nil, Resource.Apart,
    false_imp_iff, implies_true, and_true]
  refine ⟨⟨?_, ?_, ?_, ?_, ?_, ?_⟩, ⟨?_, ?_, ?_, ?_, ?_⟩, ⟨?_, ?_, ?_, ?_⟩, ⟨?_, ?_, ?_⟩, ⟨?_, ?_⟩, ?_⟩ <;> omega

section Resources

variable {biosMemoryMap : List BiosEntry} {d : Descriptor} {bfvPageNumber : Nat} {dxeIpl dxeCore : Nat × Option Nat}
  {handoff : Handoff}

/-- What is free above one megabyte is memory of the BIOS, and nothing that the loader used. -/
theorem above1MB_free (hgood : ∀ e ∈ handoff.memDesc, e.Good) (hsep : Separate (regions handoff.memDesc))
    {base top : Nat} (hgiven : Given base top (biosKind biosMemoryMap) (kindAt (regions handoff.memDesc))) {a : Nat}
    (ha : (above1MB handoff).Covers a) :
    ¬(base ≤ a ∧ a < top) ∧ ∃ kind, biosKind biosMemoryMap a = some kind ∧ kind.1 = .conventionalMemory := by
  obtain ⟨hfree, -⟩ := freeMemory_free hgood (fun _ he => he) (Free.none _ _) (Free.none _ _)
  obtain ⟨e, he, htype, hcovers⟩ := hfree.free a ha
  have hkind : kindAt (regions handoff.memDesc) a = some (e.type, e.attr) :=
    (kindAt_eq_some_iff hsep).2 ⟨e.region, List.mem_map_of_mem he, hcovers, rfl⟩
  have hat := hgiven a
  by_cases hin : base ≤ a ∧ a < top
  · rw [if_pos hin, hkind] at hat
    obtain ⟨kind, hkind', hruntime | hruntime⟩ := hat
    · cases hkind'
      exact absurd (htype.symm.trans hruntime) (by decide)
    · cases hkind'
      exact absurd (htype.symm.trans hruntime) (by decide)
  · rw [if_neg hin, hkind] at hat
    exact ⟨hin, _, hat.symm, htype⟩

/-- Where `EfiLoader` hands over memory from the top of one descriptor, the resources that `DxeInit` reports are apart,
and what it uses itself is free memory of the BIOS. -/
theorem dxeInit_resources (hsane : ∀ e ∈ biosMemoryMap, e.Sane)
    (hnested : Nested (fun kind => kind.1 = .conventionalMemory) (biosRegions biosMemoryMap))
    (htop : Top d (genMemoryMap biosMemoryMap [])) (hbfv : 0 < bfvPageNumber) (hdxeIpl : ImageGood dxeIpl)
    (hdxeCore : ImageGood dxeCore) (hless : bfvPageNumber + imagePages dxeIpl + imagePages dxeCore < d.numberOfPages)
    (hloader : efiLoader bfvPageNumber dxeIpl dxeCore (genMemoryMap biosMemoryMap []) = some handoff)
    {sizeofHob sizeOfMemorySpace ebda : Nat} {words words' : Words} {hob : Hob} {pageTableBase : Nat}
    (hwidth : 21 ≤ sizeOfMemorySpace ∧ sizeOfMemorySpace ≤ 48) (hsizeof : sizeofHob ≤ 0x1000)
    (hcount : handoff.memDesc.length ≤ 64) (hlong : 81 * 0x100000 ≤ (above1MB handoff).resourceLength)
    (hbelow : (above1MB handoff).physicalStart + (above1MB handoff).resourceLength ≤ 0x100000000)
    (hinit : dxeInit sizeofHob sizeOfMemorySpace ebda words handoff = some (hob, words', pageTableBase)) :
    LaidOut sizeofHob sizeOfMemorySpace handoff hob pageTableBase ∧ hob.resources.Pairwise Resource.Apart ∧
      ∀ a, (above1MB handoff).Covers a →
        ∃ kind, biosKind biosMemoryMap a = some kind ∧ kind.1 = .conventionalMemory := by
  obtain ⟨handoff', hloader', hbfvStop, hiplStop, hcoreStop, hlow, hsize, hgood, hsep, hgiven⟩ :=
    efiLoader_handoff hsane hnested htop hbfv hdxeIpl hdxeCore hless
  obtain rfl : handoff' = handoff := Option.some.inj (hloader'.symm.trans hloader)
  have hlaid := (dxeInit_laidOut hwidth hsizeof hcount hlong hbelow hinit).1
  refine ⟨hlaid, ?_, fun a ha => (above1MB_free hgood hsep hgiven ha).2⟩
  obtain ⟨hbfvResource, habove4GB, hdxeCoreResource, hunder⟩ := finishHob_resources sizeofHob ebda
    (nvStorageBelow (topOnDescriptor handoff')) pageTableBase handoff'
  have hhob := (dxeInit_tables (pml4BitsNum_le hwidth.1 hwidth.2) hinit).2
  rw [← stackHob, ← hhob] at hbfvResource habove4GB hdxeCoreResource hunder
  obtain ⟨hfree, hfree'⟩ := freeMemory_free hgood (fun _ he => he) (Free.none _ _) (Free.none _ _)
  have hstart : 0x100000 ≤ (above1MB handoff').physicalStart := by
    rcases hfree.range with hzero | hrange
    · rw [above1MB, hzero] at hlong
      exact absurd hlong (by decide)
    · exact hrange.1
  have hhigh : (above4GB handoff').physicalStart + (above4GB handoff').resourceLength = 0 ∨
      0x100000000 ≤ (above4GB handoff').physicalStart := by
    rcases hfree'.range with hzero | hrange
    · rw [above4GB, hzero]
      exact Or.inl rfl
    · exact Or.inr hrange.1
  have hloaded : (above1MB handoff').physicalStart + (above1MB handoff').resourceLength ≤ handoff'.dxeCoreImageBase ∨
      d.stop ≤ (above1MB handoff').physicalStart := by
    by_contra hmeet
    rw [not_or] at hmeet
    refine (above1MB_free hgood hsep hgiven (a := max (above1MB handoff').physicalStart handoff'.dxeCoreImageBase)
      ?_).1 ?_
    · rw [Resource.Covers]
      omega
    · omega
  have hlimit := htop.limit
  have hbase := htop.low
  have hcore : sub64 (u64 (handoff'.dxeIplImageBase + handoff'.dxeIplImageSize)) handoff'.dxeCoreImageBase =
      handoff'.bfvBase - handoff'.dxeCoreImageBase := by
    rw [hiplStop, u64_of_lt (by omega), sub64_eq (by omega) (by omega)]
  rw [hcore] at hdxeCoreResource
  obtain ⟨hbottom, hconsumed, -, -, -, -, -, -, -, hstorage, hftw, hlast, hmemory⟩ := hlaid
  rw [NV_STORAGE_FVB_SIZE, NV_FTW_FVB_SIZE] at hlast
  have hresources : hob.resources = [⟨0x86000, ebdaAddress ebda - 0x86000⟩,
      ⟨(above1MB handoff').physicalStart, hob.efiMemoryTop - (above1MB handoff').physicalStart⟩,
      ⟨hob.efiMemoryTop, 0x10000⟩, ⟨hob.efiMemoryTop + 0x10000, 0x20000⟩,
      ⟨handoff'.dxeCoreImageBase, handoff'.bfvBase - handoff'.dxeCoreImageBase⟩,
      ⟨handoff'.bfvBase, handoff'.bfvSize⟩, above4GB handoff'] := by
    rw [Hob.resources, hunder, hmemory, hstorage, hftw, hdxeCoreResource, hbfvResource, habove4GB, NV_STORAGE_FVB_SIZE,
      NV_FTW_FVB_SIZE]
  rw [hresources]
  have hfirst : (above1MB handoff').physicalStart ≤ hob.efiMemoryTop := by omega
  exact resources_apart (ebdaAddress_le ebda) hstart hfirst (by omega) (by omega) (by omega) hhigh

end Resources

def sampleHandoff : Handoff :=
  ⟨[⟨.conventionalMemory, 0, 0, 0x9F, 8⟩, ⟨.reservedMemoryType, 0x9F000, 0, 1, 1⟩,
      ⟨.reservedMemoryType, 0xF0000, 0, 0x10, 1⟩, ⟨.conventionalMemory, 0x100000, 0, 0x1FF00, 8⟩,
      ⟨.conventionalMemory, 0x20200000, 0, 0x1F5A2, 8⟩, ⟨.reservedMemoryType, 0x20000000, 0, 0x200, 1⟩,
      ⟨.acpiReclaimMemory, 0x3FFF0000, 0, 0xB, 8⟩, ⟨.runtimeServicesData, 0x3F7F0000, 0, 0x800, 8⟩,
      ⟨.runtimeServicesCode, 0x3F7E7000, 0, 9, 8⟩, ⟨.runtimeServicesData, 0x3F7E6000, 0, 1, 8⟩,
      ⟨.runtimeServicesCode, 0x3F7A6000, 0, 0x40, 8⟩, ⟨.runtimeServicesData, 0x3F7A2000, 0, 4, 8⟩],
    0x3F7F0000, 0x800000, 0x3F7E6000, 0xA000, 0x3F7A2000, 0x44000⟩

theorem sampleHandoff_eq :
    efiLoader 0x800 (9, some 1) (0x40, some 4) (genMemoryMap sampleBios []) = some sampleHandoff := by
  rfl

theorem sampleBios_resources : ∃ hob words', dxeInit 0x400 36 0x9FC0 (fun _ => 0) sampleHandoff =
      some (hob, words', 0x1FF6D000) ∧ LaidOut 0x400 36 sampleHandoff hob 0x1FF6D000 ∧
    hob.resources.Pairwise Resource.Apart ∧
    ∀ a, (above1MB sampleHandoff).Covers a →
        ∃ kind, biosKind sampleBios a = some kind ∧ kind.1 = .conventionalMemory := by
  have hmemory : above1MB sampleHandoff = ⟨0x100000, 0x1FF00000⟩ := by decide
  have hlevels : levelsOf 36 = ⟨0, 6, 9⟩ := by decide
  have hsize : allocation (levelsOf 36) = 0x43000 := by rw [hlevels]; decide
  have htop : sub64 (nvStorageBelow (topOnDescriptor sampleHandoff)) (0x20 * 4096) = 0x1FFB0000 := by
    rw [topOnDescriptor, hmemory]
    decide
  obtain ⟨words', htables⟩ : ∃ words', preparePageTable (fun _ => 0) 0x1FFB0000 36 = .tables words' 0x1FF6D000 := by
    rw [preparePageTable, if_neg (by rw [hlevels]; decide), if_neg (by rw [hsize]; decide), hsize]
    exact ⟨_, rfl⟩
  obtain ⟨hob, hinit⟩ : ∃ hob, dxeInit 0x400 36 0x9FC0 (fun _ => 0) sampleHandoff = some (hob, words', 0x1FF6D000) := by
    simp only [dxeInit, prepareHobMemory_snd, prepareHobNvStorage_snd, prepareHobStack_snd, htop, htables]
    exact ⟨_, rfl⟩
  exact ⟨hob, words', hinit, dxeInit_resources sampleBios_sane sampleBios_nested sampleTop_top (by decide)
    (imageGood_some (by decide) (by decide)) (imageGood_some (by decide) (by decide)) (by decide) sampleHandoff_eq
    (by decide) (by decide) (by decide) (by rw [hmemory]; decide) (by rw [hmemory]; decide) hinit⟩

end BareBoot.HobMemory
