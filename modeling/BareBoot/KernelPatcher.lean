import BareBoot.Block
import BareBoot.KextSearch

/-! `kernel_patcher.c`: the sections of the kernel, its version, and the patches that depend on the version.
A patch routine is the list of its steps: a step looks a section up or searches the range looked up last. Addresses do
not wrap. -/

namespace BareBoot.Kernel

open Plist Kext

/-- `AsciiStrnCmp`. -/
def asciiStrnCmp : Bytes → Bytes → Nat → Int
  | _, _, 0 => 0
  | [], [], _ + 1 => 0
  | [], d :: _, _ + 1 => -(d.toNat : Int)
  | c :: _, [], _ + 1 => c.toNat
  | c :: cs, d :: ds, length + 1 =>
      if c = 0 ∨ d = 0 ∨ c ≠ d then (c.toNat : Int) - d.toNat else asciiStrnCmp cs ds length

/-! ### Sections -/

/-- `KernelData`, `KernelRelocBase` and `is64BitKernel`. -/
structure KernelImage where
  data : Nat
  relocBase : Nat
  is64Bit : Bool

/-- What `GetSection` gives back through its two pointers. -/
structure Range where
  addr : Nat
  size : Nat

/-- Of a load command with sections: its size without them, the size of a section, the width of an address in it. -/
structure SegmentLayout where
  segmentSize : Nat
  sectionSize : Nat
  addrWidth : Nat

/-- `LC_SEGMENT_64` and `LC_SEGMENT`. -/
def segmentLayout (cmd : Nat) : Option SegmentLayout :=
  if cmd = 0x19 then some ⟨72, 80, 8⟩ else if cmd = 1 then some ⟨56, 68, 4⟩ else none

/-- `AsciiStrCmp (name, text) == 0`. -/
def isNamed (memory : Memory) (name : Nat) (text : Bytes) : Bool := holds memory name (text ++ [0])

def sectAddr (kernel : KernelImage) (memory : Memory) (layout : SegmentLayout) (sect : Nat) : Nat :=
  let addr := wordAt memory layout.addrWidth (sect + 32)
  if addr = 0 then 0 else (addr + kernel.relocBase) % 2 ^ 32

def sectSize (memory : Memory) (layout : SegmentLayout) (sect : Nat) : Nat :=
  wordAt memory layout.addrWidth (sect + 32 + layout.addrWidth)

/-- The loop over the sections of a segment, with `sectionIndex` a `UINT32`; the answer is the section of that name. -/
def sectionLoop (memory : Memory) (layout : SegmentLayout) (segCmd : Nat) (segment name : Bytes) :
    Nat → Nat → Option (Option Nat)
  | 0, _ => none
  | rounds + 1, sectionIndex =>
      if sectionIndex < wordAt memory 4 (segCmd + 4) then
        let sect := segCmd + sectionIndex
        if isNamed memory sect name && isNamed memory (sect + 16) segment then some (some sect)
        else sectionLoop memory layout segCmd segment name rounds ((sectionIndex + layout.sectionSize) % 2 ^ 32)
      else some none

/-- One load command: the range is set by a section of that name that is not empty, and stays otherwise. -/
def getSectionStep (kernel : KernelImage) (memory : Memory) (segment name : Bytes) (loadCommand : Nat) (range : Range) :
    Option Range :=
  match segmentLayout (wordAt memory 4 loadCommand) with
  | none => some range
  | some layout =>
      if isNamed memory (loadCommand + 8) segment then
        (sectionLoop memory layout loadCommand segment name (2 ^ 32) layout.segmentSize).map fun sect =>
          match sect with
          | none => range
          | some sect =>
              if 0 < sectSize memory layout sect then
                ⟨sectAddr kernel memory layout sect, sectSize memory layout sect % 2 ^ 32⟩
              else range
      else some range

/-- The loop over the load commands, with `binaryIndex` a `UINT32`. -/
def commandLoop (kernel : KernelImage) (memory : Memory) (segment name : Bytes) : Nat → Nat → Range → Option Range
  | 0, _, range => some range
  | ncmds + 1, binaryIndex, range => do
      let loadCommand := kernel.data + binaryIndex
      let range ← getSectionStep kernel memory segment name loadCommand range
      commandLoop kernel memory segment name ncmds ((binaryIndex + wordAt memory 4 (loadCommand + 4)) % 2 ^ 32) range

/-- `GetSection`; `range` is what stood in `*Addr` and `*Size` before. -/
def getSection (kernel : KernelImage) (memory : Memory) (segment name : Bytes) (range : Range) : Option Range :=
  commandLoop kernel memory segment name (wordAt memory 4 (kernel.data + 16)) (if kernel.is64Bit then 32 else 28) range

/-! ### Patches -/

inductive PatchStep where
  | getSection (segment name : Bytes)
  | searchAndReplace (search replace : Bytes)
  deriving DecidableEq

def kldText : PatchStep := .getSection (ascii "__KLD") (ascii "__text")
def textText : PatchStep := .getSection (ascii "__TEXT") (ascii "__text")

def kbeSL_X64 : PatchStep := .searchAndReplace
  [0xDF, 0xE8, 0x50, 0xFB, 0xFF, 0xFF, 0xEB, 0x08, 0x48, 0x89, 0xDF]
  [0xDF, 0xE8, 0x50, 0xFB, 0xFF, 0xFF, 0x90, 0x90, 0x48, 0x89, 0xDF]

def kbeSL_1080_X64 : PatchStep := .searchAndReplace
  [0xDF, 0xE8, 0x5A, 0xFB, 0xFF, 0xFF, 0xEB, 0x08, 0x48, 0x89, 0xDF]
  [0xDF, 0xE8, 0x5A, 0xFB, 0xFF, 0xFF, 0x90, 0x90, 0x48, 0x89, 0xDF]

def kbeSL_i386 : PatchStep := .searchAndReplace
  [0xE8, 0xED, 0xF9, 0xFF, 0xFF, 0xEB, 0x08, 0x89, 0x1C]
  [0xE8, 0xED, 0xF9, 0xFF, 0xFF, 0x90, 0x90, 0x89, 0x1C]

def kbeLion_X64 : PatchStep := .searchAndReplace
  [0xE8, 0x0C, 0xFD, 0xFF, 0xFF, 0xEB, 0x08, 0x48, 0x89, 0xDF]
  [0xE8, 0x0C, 0xFD, 0xFF, 0xFF, 0x90, 0x90, 0x48, 0x89, 0xDF]

def kbeLion_i386 : PatchStep := .searchAndReplace
  [0xE8, 0xAA, 0xFB, 0xFF, 0xFF, 0xEB, 0x08, 0x89, 0x34, 0x24]
  [0xE8, 0xAA, 0xFB, 0xFF, 0xFF, 0x90, 0x90, 0x89, 0x34, 0x24]

def kbeML : PatchStep := .searchAndReplace
  [0xC6, 0xE8, 0x30, 0x00, 0x00, 0x00, 0xEB, 0x08, 0x48, 0x89, 0xDF]
  [0xC6, 0xE8, 0x30, 0x00, 0x00, 0x00, 0x90, 0x90, 0x48, 0x89, 0xDF]

def kbeY : PatchStep := .searchAndReplace
  [0xC6, 0xE8, 0x25, 0x00, 0x00, 0x00, 0xEB, 0x05, 0xE8]
  [0xC6, 0xE8, 0x25, 0x00, 0x00, 0x00, 0x90, 0x90, 0xE8]

def kbeEntitlement : PatchStep := .searchAndReplace
  [0xC3, 0x48, 0x85, 0xDB, 0x74, 0x70, 0x48, 0x8B, 0x03, 0x48, 0x89, 0xDF, 0xFF, 0x50, 0x28, 0x48]
  [0xC3, 0x48, 0x85, 0xDB, 0xEB, 0x12, 0x48, 0x8B, 0x03, 0x48, 0x89, 0xDF, 0xFF, 0x50, 0x28, 0x48]

def kbeSDP2Entitlement : PatchStep := .searchAndReplace
  [0xC3, 0x48, 0x85, 0xDB, 0x74, 0x71, 0x48, 0x8B, 0x03, 0x48, 0x89, 0xDF, 0xFF, 0x50, 0x28, 0x48]
  [0xC3, 0x48, 0x85, 0xDB, 0xEB, 0x12, 0x48, 0x8B, 0x03, 0x48, 0x89, 0xDF, 0xFF, 0x50, 0x28, 0x48]

def kbeHSEntitlement : PatchStep := .searchAndReplace
  [0xC3, 0x48, 0x85, 0xDB, 0x74, 0x69, 0x48, 0x8B, 0x03, 0x48, 0x89, 0xDF, 0xFF, 0x50, 0x28, 0x48]
  [0xC3, 0x48, 0x85, 0xDB, 0xEB, 0x12, 0x48, 0x8B, 0x03, 0x48, 0x89, 0xDF, 0xFF, 0x50, 0x28, 0x48]

def kbeECDebug : PatchStep := .searchAndReplace
  [0xE8, 0x44, 0x00, 0x00, 0x00, 0xE9, 0x09, 0x00, 0x00, 0x00]
  [0xE8, 0x44, 0x00, 0x00, 0x00, 0x90, 0x90, 0x90, 0x90, 0x90]

def kbeECDebugEntitlement : PatchStep := .searchAndReplace
  [0x39, 0xC1, 0x0F, 0x85, 0x3C, 0x00, 0x00, 0x00, 0x48, 0x8B]
  [0x39, 0xC1, 0xE9, 0x3D, 0x00, 0x00, 0x00, 0x90, 0x48, 0x8B]

/-- `strncmp (KernVersion, prefix) == 0` over the length of the prefix. -/
def startsWith (kernVersion text : Bytes) : Bool := asciiStrnCmp kernVersion text text.length == 0

/-- `KernelBooterExtensionsPatch` for a kernel whose version is known. -/
def booterExtensionsSteps (is64BitKernel : Bool) (kernVersion : Bytes) : List PatchStep :=
  kldText ::
    if is64BitKernel then
      if startsWith kernVersion (ascii "10.8.0") then [kbeSL_1080_X64]
      else if startsWith kernVersion (ascii "10") then [kbeSL_X64]
      else if startsWith kernVersion (ascii "11") then [kbeLion_X64]
      else if startsWith kernVersion (ascii "12") || startsWith kernVersion (ascii "13") then [kbeML]
      else if startsWith kernVersion (ascii "14") then [kbeY]
      else if startsWith kernVersion (ascii "14.4") || startsWith kernVersion (ascii "15") then
        [kbeY, kbeECDebug, textText, kbeEntitlement, kbeECDebugEntitlement]
      else if startsWith kernVersion (ascii "16") then [kbeY, textText, kbeSDP2Entitlement]
      else if startsWith kernVersion (ascii "17") then [kbeY, textText, kbeHSEntitlement]
      else []
    else if startsWith kernVersion (ascii "10") then [kbeSL_i386]
    else if startsWith kernVersion (ascii "11") then [kbeLion_i386]
    else []

/-- Without a version nothing is done. -/
def kernelBooterExtensionsPatch (is64BitKernel : Bool) (kernVersion : Option Bytes) : List PatchStep :=
  match kernVersion with
  | none => []
  | some kernVersion => booterExtensionsSteps is64BitKernel kernVersion

/-- `KReplaceCpuId` with the signature in it. -/
def replaceCpuId (cpuIdSing : Nat) : Bytes :=
  [0xB8, 0x01, 0x00, 0x00, 0x00, 0x0F, 0xA2, 0xB8] ++ (List.range 4).map (wordByte cpuIdSing) ++ [0x90]

def cpuId_1 (cpuIdSing : Nat) : PatchStep := .searchAndReplace
  [0xB8, 0x01, 0x00, 0x00, 0x00, 0x31, 0xDB, 0x89, 0xD9, 0x89, 0xDA, 0x0F, 0xA2] (replaceCpuId cpuIdSing)

def cpuId_2 (cpuIdSing : Nat) : PatchStep := .searchAndReplace
  [0xB8, 0x01, 0x00, 0x00, 0x00, 0x31, 0xDB, 0x31, 0xC9, 0x31, 0xD2, 0x0F, 0xA2] (replaceCpuId cpuIdSing)

def cpuIdSteps (is64BitKernel : Bool) (cpuIdSing : Nat) (kernVersion : Bytes) : List PatchStep :=
  textText ::
    if is64BitKernel then
      if 0 ≤ asciiStrnCmp kernVersion (ascii "10.7.1") 6 ∧ asciiStrnCmp kernVersion (ascii "11.0.0") 6 < 0 then
        [cpuId_1 cpuIdSing]
      else if 0 ≤ asciiStrnCmp kernVersion (ascii "11.0.0") 6 then [cpuId_2 cpuIdSing]
      else []
    else []

def kernelPatchCpuId_64 (is64BitKernel : Bool) (cpuIdSing : Nat) (kernVersion : Option Bytes) : List PatchStep :=
  match kernVersion with
  | none => []
  | some kernVersion => cpuIdSteps is64BitKernel cpuIdSing kernVersion

/-! ### Accesses -/

/-- An access to memory, with the section looked up last. -/
structure Access where
  looked : Option (Bytes × Bytes)
  address : Nat

structure PatchState where
  memory : Memory
  range : Range
  looked : Option (Bytes × Bytes)

/-- The windows `SearchAndReplace` compares with the pattern, up to the first match, which it overwrites. -/
def comparedWindows (memory : Memory) (search : Bytes) : Nat → Nat → List Nat
  | 0, _ => []
  | left + 1, source => source :: if holds memory source search then [] else comparedWindows memory search left (source + 1)

def window (looked : Option (Bytes × Bytes)) (count source : Nat) : List Access :=
  (List.range count).map fun i => ⟨looked, source + i⟩

/-- A step of a patch with one replacement at most, and what it accesses. -/
def patchStep (kernel : KernelImage) (state : PatchState) : PatchStep → Option (PatchState × List Access)
  | .getSection segment name => do
      let range ← getSection kernel state.memory segment name state.range
      pure (⟨state.memory, range, some (segment, name)⟩, [])
  | .searchAndReplace search replace => do
      let run ← searchAndReplace state.memory state.range.addr state.range.size search replace 1
      pure (⟨run.1, state.range, state.looked⟩,
        (comparedWindows state.memory search (state.range.size + 1 - search.length) state.range.addr).flatMap
          (window state.looked search.length))

def patchSteps (kernel : KernelImage) : PatchState → List PatchStep → Option (PatchState × List Access)
  | state, [] => some (state, [])
  | state, step :: steps => do
      let run ← patchStep kernel state step
      let rest ← patchSteps kernel run.1 steps
      pure (rest.1, run.2 ++ rest.2)

/-! ### The version -/

def darwinKernelVersion : Bytes := ascii "Darwin Kernel Version"

/-- What a comparison with a text reads: up to the first byte that differs. -/
def comparedBytes (memory : Memory) : Nat → Bytes → List Nat
  | _, [] => []
  | a, c :: cs => a :: if memory a = c then comparedBytes memory (a + 1) cs else []

/-- The bytes read until the text is found, and where. -/
def findVersion (memory : Memory) : Nat → Nat → Option Nat × List Nat
  | 0, _ => (none, [])
  | left + 1, i =>
      if holds memory i darwinKernelVersion then (some i, comparedBytes memory i darwinKernelVersion)
      else
        let rest := findVersion memory left (i + 1)
        (rest.1, comparedBytes memory i darwinKernelVersion ++ rest.2)

/-- The bytes read until a colon stands, and where. -/
def findColon (memory : Memory) : Nat → Nat → Option Nat × List Nat
  | 0, _ => (none, [])
  | left + 1, i2 =>
      if memory i2 = 58 then (some i2, [i2])
      else
        let rest := findColon memory left (i2 + 1)
        (rest.1, i2 :: rest.2)

inductive VersionSearch where
  | notFound
  | version (kv : Bytes)
  | endless

/-- The loop over the two sections. `addr + size` is a `UINT32`; without a colon the search for it does not end. -/
def versionLoop (kernel : KernelImage) (memory : Memory) : List Bytes → Range → Option (VersionSearch × List Access)
  | [], _ => some (.notFound, [])
  | name :: names, range => do
      let range ← getSection kernel memory (ascii "__TEXT") name range
      let looked := some (ascii "__TEXT", name)
      let found := findVersion memory ((range.addr + range.size) % 2 ^ 32 - range.addr) range.addr
      let accesses := found.2.map (Access.mk looked)
      match found.1 with
      | none => do
          let rest ← versionLoop kernel memory names range
          pure (rest.1, accesses ++ rest.2)
      | some i =>
          let colon := findColon memory (2 ^ 64 - (i + 22)) (i + 22)
          let kv := match colon.1 with
            | none => .endless
            | some i2 => .version (bytesAt memory (i + 22) (i2 - (i + 22)))
          pure (kv, accesses ++ colon.2.map (Access.mk looked))

def getKernelVersion (kernel : KernelImage) (memory : Memory) (range : Range) : Option (VersionSearch × List Access) :=
  versionLoop kernel memory [ascii "__const", ascii "__cstring"] range

/-! ### The patcher -/

/-- What the patcher goes by: the globals after `KernelAndKextPatcherInit` and the settings. What the search for FakeSMC,
`InjectKexts` and `FindBootArgs` come to is given, and whether `KernelPatchCPU_32` finds what it patches. -/
structure Patcher where
  kernelData : Option Nat
  is64BitKernel : Bool
  kernVersion : Option Bytes
  ssse3 : Bool
  cpuFamilyPatched : Bool
  prelinkInfoAddr : Nat
  fakeSMCFound : Bool
  bootArgsFound : Bool
  kextsInjected : Bool
  withKexts : Bool
  patchCPU : Bool
  divertLogs : Nat
  cpuIdSing : Nat
  patchPM : Bool
  patchLAPIC : Bool
  kpKernelPatchesNeeded : Bool
  kpKextPatchesNeeded : Bool
  loadExtraKexts : Bool
  checkFakeSMC : Bool

/-- What the patcher does, in order; `NULL` is read for a missing version. -/
inductive Action where
  | readNull
  | patcherSSE3_5
  | patcherSSE3_6
  | kernelPatchCPU_32
  | divertLogFunction (srcName dstName : Bytes)
  | kernelPatchCpuId_64 (steps : List PatchStep)
  | kernelPatchPm
  | kernelLapicPatch_64
  | kernelLapicPatch_32
  | anyKernelPatch
  | kextPatcherStart
  | injectKexts
  | kernelBooterExtensionsPatch (steps : List PatchStep)
  deriving DecidableEq

/-- The patch for processors without SSSE3; `nullText` is what stands at address zero. -/
def sse3Actions (p : Patcher) (nullText : Bytes) : List Action :=
  if p.ssse3 then []
  else
    (if p.kernVersion = none then [.readNull] else []) ++
      if startsWith (p.kernVersion.getD nullText) (ascii "10") then [.patcherSSE3_6] else []

/-- `KernelPatchCPU_32`: behind the patch of the CPU family it goes by the version, if there is one. -/
def cpu32Actions (p : Patcher) : List Action :=
  .kernelPatchCPU_32 ::
    match p.kernVersion with
    | none => []
    | some kernVersion =>
        if !p.cpuFamilyPatched || startsWith kernVersion (ascii "11") then []
        else
          (if !p.ssse3 && startsWith kernVersion (ascii "10") then [.patcherSSE3_6] else []) ++
            if !p.ssse3 && startsWith kernVersion (ascii "9") then [.patcherSSE3_5] else []

def divertActions (divertLogs : Nat) : List Action :=
  if divertLogs = 1 then
    [.divertLogFunction (ascii "_kprintf") (ascii "_printf"), .divertLogFunction (ascii "_IOLog") (ascii "_printf")]
  else if divertLogs = 2 then
    [.divertLogFunction (ascii "_printf") (ascii "_kprintf"), .divertLogFunction (ascii "_IOLog") (ascii "_kprintf")]
  else []

def kextActions (p : Patcher) : List Action :=
  let withKexts := p.withKexts && !(p.loadExtraKexts && p.checkFakeSMC && p.prelinkInfoAddr != 0 && p.fakeSMCFound)
  if withKexts && p.bootArgsFound then
    .injectKexts ::
      if p.kextsInjected then [.kernelBooterExtensionsPatch (kernelBooterExtensionsPatch p.is64BitKernel p.kernVersion)] else []
  else []

def kernelAndKextsPatcherStart (p : Patcher) (nullText : Bytes) : List Action :=
  if p.kernelData = none then []
  else
    (if p.patchCPU then (if p.is64BitKernel then sse3Actions p nullText else cpu32Actions p) else []) ++
      divertActions p.divertLogs ++
      (if p.cpuIdSing ≠ 0 then [.kernelPatchCpuId_64 (kernelPatchCpuId_64 p.is64BitKernel p.cpuIdSing p.kernVersion)] else []) ++
      (if p.patchPM && p.is64BitKernel then [.kernelPatchPm] else []) ++
      (if p.patchLAPIC then [if p.is64BitKernel then .kernelLapicPatch_64 else .kernelLapicPatch_32] else []) ++
      (if p.kpKernelPatchesNeeded then [.anyKernelPatch] else []) ++
      (if p.kpKextPatchesNeeded then [.kextPatcherStart] else []) ++ kextActions p

end BareBoot.Kernel
