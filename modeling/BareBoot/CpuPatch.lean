import BareBoot.KernelPatcher
import BareBoot.LapicPatch

/-! `KernelPatchCPU_32`, `Patcher_SSE3_6` and `Patcher_SSE3_5`. A run that gives no kernel back has left the kernel or does
not end. -/

namespace BareBoot.Kernel

open Plist

/-- A search with a `UINT32` for `i`; `spent` is what follows when the rounds are used up. -/
def scan (pattern : Pattern) (spent : Option (Option Nat)) (kernel : KernelBytes) : Nat → Nat → Option (Option Nat)
  | 0, _ => spent
  | rounds + 1, i => do
      if ← kernel.test i pattern then some (some i) else scan pattern spent kernel rounds (u32 ((i : Int) + 1))

/-! ### The patches of the SSE3 routine -/

/-- What the two patches do not have in common: how far before its instruction the routine begins, the title and what it
becomes, and the new routine. -/
structure Sse3Patch where
  back : Nat
  title : Pattern
  newTitle : Pattern
  patcher : Bytes

def sse3_6 (sse3_patcher : Bytes) : Sse3Patch where
  back := 1664 + 32
  title := [(0, 0xE3), (1, 0x07), (2, 0x00), (3, 0x00), (4, 0x80), (5, 0x07), (6, 0xFF), (7, 0xFF), (8, 0x24), (9, 0x01)]
  newTitle := [(0, 0xFC), (1, 0x05), (8, 0x2C), (9, 0x00)]
  patcher := sse3_patcher

def sse3_5 (sse3_5_patcher : Bytes) : Sse3Patch where
  back := 1680 + 32
  title := [(0, 0xF3), (1, 0x07), (2, 0x00), (3, 0x00), (4, 0x80), (5, 0x07), (6, 0xFF), (7, 0xFF), (8, 0x24), (9, 0x01)]
  newTitle := [(0, 0x0C), (1, 0x06), (8, 0x2C), (9, 0x00)]
  patcher := sse3_5_patcher

def movdqa : Pattern := [(0, 0x66), (1, 0x0F), (2, 0x6F), (3, 0x44), (4, 0x0E), (5, 0xF1)]

def routineHint (back : Nat) : Pattern := movdqa ++ [(-(back : Int), 0x55)]

def endOfRoutine : Pattern := [(0, 0x90), (1, 0x90), (2, 0x55)]

/-- The loop that ends at the title; `patchLocation1` is the last routine met. -/
def findRoutine (patch : Sse3Patch) (spent : Nat → Option (Nat × Nat)) (kernel : KernelBytes) :
    Nat → Nat → Nat → Option (Nat × Nat)
  | 0, _, patchLocation1 => spent patchLocation1
  | rounds + 1, i, patchLocation1 => do
      let found ← kernel.test i (routineHint patch.back)
      let patchLocation1 := if found then u32 ((i : Int) - patch.back) else patchLocation1
      if ← kernel.test i patch.title then some (patchLocation1, i)
      else findRoutine patch spent kernel rounds (u32 ((i : Int) + 1)) patchLocation1

/-- The new routine, filled up with `0x90`. -/
def storeRoutine (patcher : Bytes) (patchLocation1 patchlast : Nat) (kernel : KernelBytes) : Option KernelBytes :=
  (List.range patchlast).foldlM
    (fun (kernel : KernelBytes) (i : Nat) => kernel.write (u32 ((patchLocation1 : Int) + i)) (patcher.getD i 0x90)) kernel

def applySse3 (patch : Sse3Patch) (kernel : KernelBytes) (patchLocation1 patchLocation2 : Nat) (last : Option Nat) :
    Option KernelBytes :=
  match last with
  | none => some kernel
  | some i => do
      let patchlast := u32 ((i : Int) + 1 - patchLocation1)
      if patchlast = 0 then some kernel
      else
        let kernel ← storeRoutine patch.patcher patchLocation1 patchlast kernel
        kernel.writeAll patchLocation2 patch.newTitle

/-- Neither loop is bounded by anything. -/
def patcher_SSE3_6 (sse3_patcher : Bytes) (rounds : Nat) (kernel : KernelBytes) : Option KernelBytes := do
  let patch := sse3_6 sse3_patcher
  let (patchLocation1, patchLocation2) ← findRoutine patch (fun _ => none) kernel rounds 0 0
  if patchLocation1 = 0 ∨ patchLocation2 = 0 then some kernel
  else
    let last ← scan endOfRoutine none kernel rounds (u32 ((patchLocation1 : Int) + 1500))
    applySse3 patch kernel patchLocation1 patchLocation2 last

inductive Arch where
  | ia32
  | x64

def Arch.sizeofPointer : Arch → Nat
  | ia32 => 4
  | x64 => 8

/-- `Length` is the size of a pointer, and `Length - 256` wraps around. -/
def patcher_SSE3_5 (sse3_5_patcher : Bytes) (arch : Arch) (kernel : KernelBytes) : Option KernelBytes := do
  let patch := sse3_5 sse3_5_patcher
  let length := arch.sizeofPointer
  let (patchLocation1, patchLocation2) ←
    findRoutine patch (fun patchLocation1 => some (patchLocation1, 0)) kernel (u32 ((length : Int) - 256) - 256) 256 0
  if patchLocation1 = 0 ∨ patchLocation2 = 0 then some kernel
  else
    let start := u32 ((patchLocation1 : Int) + 1500)
    let last ← scan endOfRoutine (some none) kernel (length - start) start
    applySse3 patch kernel patchLocation1 patchLocation2 last

/-! ### The patch of the CPU detection -/

/-- What is compared before `bytes[i-5]` is. -/
def panicStores : Pattern := [(0, 0xC7), (1, 0x05), (6, 0x07), (7, 0x00), (8, 0x00), (9, 0x00), (10, 0xC7), (11, 0x05)]

def panicCall : Pattern := panicStores ++ [(-5, 0xE8)]

def tscPanic : Pattern := [(0, 0xC7), (1, 0x04), (2, 0x24), (3, 0x54), (4, 0x0E), (5, 0x59), (6, 0x00)]

/-- `for (i=0;i<500;i++)`, down from `jumpaddr`. -/
def findJump (kernel : KernelBytes) (jumpaddr : Nat) : Nat → Nat → Option (Option Nat)
  | 0, _ => some none
  | rounds + 1, i => do
      if ← kernel.test jumpaddr [(-(i : Int) - 3, 0x85), (-(i : Int) - 2, 0xC0), (-(i : Int) - 1, 0x75)] then some (some i)
      else findJump kernel jumpaddr rounds (i + 1)

/-- The jump over the panic becomes a `ja`; given back is also `jumpaddr`. -/
def redirectJump (kernel : KernelBytes) (patchLocation : Nat) : Option (KernelBytes × Nat) := do
  match ← findJump kernel patchLocation 500 0 with
  | none => some (kernel, patchLocation)
  | some i =>
      let jumpaddr := u32 ((patchLocation : Int) - i)
      let kernel ← kernel.write (u32 ((jumpaddr : Int) - 1)) 0x77
      let c ← kernel.read (u32 ((patchLocation : Int) - 17))
      if c = 0xC7 then
        let d ← kernel.read jumpaddr
        let kernel ← kernel.write jumpaddr (d - 10)
        some (kernel, jumpaddr)
      else some (kernel, jumpaddr)

/-- `bytes[i] = bytes[j]` -/
def copyByte (kernel : KernelBytes) (i j : Nat) : Option KernelBytes := do
  let b ← kernel.read j
  kernel.write i b

/-- `CPUFAMILY_INTEL_YONAH`, where a family is stored at all. -/
def storeFamily (kernel : KernelBytes) (patchLocation : Nat) : Option KernelBytes := do
  let c ← kernel.read (u32 ((patchLocation : Int) - 17))
  if c = 0xC7 then kernel.writeAll patchLocation [(-11, 0x00), (-10, 0x73), (-9, 0xD6), (-8, 0x73)] else some kernel

/-- The CPU family, and `CPUID_MODEL_YONAH` where the panic was called. -/
def patchFamily (kernel : KernelBytes) (patchLocation jumpaddr : Nat) : Option KernelBytes := do
  let kernel ← storeFamily kernel patchLocation
  let kernel ← kernel.writeAll patchLocation [(-7, 0xC7), (-6, 0x05)]
  let kernel ← [0, 1, 2, 3].foldlM (fun (kernel : KernelBytes) (k : Int) =>
    copyByte kernel (u32 ((patchLocation : Int) - 5 + k)) (u32 ((jumpaddr : Int) + 3 + k))) kernel
  kernel.writeAll patchLocation [(-1, 6), (0, 14), (1, 0x01), (2, 0x00), (3, 0x90), (4, 0x90)]

def patchTsc (kernel : KernelBytes) : Option KernelBytes := do
  match ← scan tscPanic (some none) kernel searchWindow 0 with
  | none => some kernel
  | some i => kernel.writeAll (u32 ((i : Int) + 7)) noCall

/-- The bytes as far as they do not depend on the version, and whether the end of the routine is reached. -/
def patchCpuid (kernel : KernelBytes) : Option (KernelBytes × Bool) := do
  match ← scan panicCall (some none) kernel searchWindow 0 with
  | none => some (kernel, false)
  | some i =>
      let patchLocation := u32 ((i : Int) - 5)
      if patchLocation = 0 then some (kernel, false)
      else
        let kernel ← patchTsc kernel
        let kernel ← kernel.writeAll patchLocation noCall
        let (kernel, jumpaddr) ← redirectJump kernel patchLocation
        if jumpaddr = patchLocation then some (kernel, false)
        else
          let kernel ← patchFamily kernel patchLocation jumpaddr
          some (kernel, true)

/-- What the patch knows besides the kernel: the version, the CPU, and the two routines. -/
structure CpuPatchSettings where
  kernVersion : Option Bytes
  ssse3 : Bool
  arch : Arch
  sse3_patcher : Bytes
  sse3_5_patcher : Bytes

/-- The version is one for which `Patcher_SSE3_6`, or `Patcher_SSE3_5`, is called. -/
def CpuPatchSettings.calls (settings : CpuPatchSettings) (version : Bytes) (length : Nat) : Bool :=
  match settings.kernVersion with
  | none => false
  | some kernVersion =>
      asciiStrnCmp kernVersion (ascii "11") 2 != 0 && !settings.ssse3 && asciiStrnCmp kernVersion version length == 0

def patchSse3 (settings : CpuPatchSettings) (rounds : Nat) (kernel : KernelBytes) : Option KernelBytes := do
  let kernel ←
    if settings.calls (ascii "10") 2 then patcher_SSE3_6 settings.sse3_patcher rounds kernel else some kernel
  if settings.calls (ascii "9") 1 then patcher_SSE3_5 settings.sse3_5_patcher settings.arch kernel else some kernel

def kernelPatchCPU_32 (settings : CpuPatchSettings) (rounds : Nat) (kernel : KernelBytes) : Option KernelBytes := do
  let (kernel, atEnd) ← patchCpuid kernel
  if atEnd then patchSse3 settings rounds kernel else some kernel

end BareBoot.Kernel
