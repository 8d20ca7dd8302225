import BareBoot.KernelSections
import BareBoot.Word

/-! `GetFunction` and `DivertLogFunction`: a symbol is looked up in `__LINKEDIT`, and a near jump is written over the
function it names. -/

namespace BareBoot.Kernel

open Plist Kext

/-- What is kept of the load commands; 0 before they are met. -/
structure SymbolCommands where
  linkeditaddr : Nat
  linkeditfileoff : Nat
  symoff : Nat
  nsyms : Nat
  stroff : Nat
  strsize : Nat

/-- `LC_SEGMENT_64` of `__LINKEDIT`, without sections, and `LC_SYMTAB`. -/
def symbolStep (memory : Memory) (loadCommand : Nat) (found : SymbolCommands) : SymbolCommands :=
  let cmd := wordAt memory 4 loadCommand
  if cmd = 0x19 then
    if wordAt memory 4 (loadCommand + 64) = 0 ∧ isNamed memory (loadCommand + 8) (ascii "__LINKEDIT") then
      { found with
        linkeditaddr := wordAt memory 8 (loadCommand + 24) % 2 ^ 32
        linkeditfileoff := wordAt memory 8 (loadCommand + 40) % 2 ^ 32 }
    else found
  else if cmd = 2 then
    { found with
      symoff := wordAt memory 4 (loadCommand + 8)
      nsyms := wordAt memory 4 (loadCommand + 12)
      stroff := wordAt memory 4 (loadCommand + 16)
      strsize := wordAt memory 4 (loadCommand + 20) }
  else found

def symbolCommands (kernel : KernelImage) (memory : Memory) : Nat → Nat → SymbolCommands → SymbolCommands
  | 0, _, found => found
  | ncmds + 1, binaryIndex, found =>
      let loadCommand := kernel.data + binaryIndex
      symbolCommands kernel memory ncmds ((binaryIndex + wordAt memory 4 (loadCommand + 4)) % 2 ^ 32)
        (symbolStep memory loadCommand found)

/-- How much `AsciiStrCmp` reads of the string at `a`: up to a difference, or to the end. -/
def comparedLength (memory : Memory) : Nat → Bytes → Nat
  | _, [] => 0
  | a, c :: text => if memory a = c then comparedLength memory (a + 1) text + 1 else 1

/-- A symbol that was looked at: its entry, its name, and how much of the name was read. -/
structure SymbolRead where
  entry : Nat
  name : Nat
  nameLength : Nat

section Lookup

variable (memory : Memory) (functionName : Bytes) (strbin : Nat)

/-- `AsciiStrCmp (strbin + n_strx, FunctionName) == 0`. -/
def isSymbol (entry : Nat) : Bool := isNamed memory (strbin + wordAt memory 4 entry) (cstr functionName)

def symbolRead (entry : Nat) : SymbolRead :=
  ⟨entry, strbin + wordAt memory 4 entry,
    comparedLength memory (strbin + wordAt memory 4 entry) (cstr functionName ++ [0])⟩

/-- The loop over the symbols. -/
def symbolLoop : Nat → Nat → Nat × List SymbolRead
  | 0, _ => (0, [])
  | left + 1, symbin =>
      let read := symbolRead memory functionName strbin symbin
      if isSymbol memory functionName strbin symbin then (wordAt memory 8 (symbin + 8) % 2 ^ 32, [read])
      else
        let rest := symbolLoop left (symbin + 16)
        (rest.1, read :: rest.2)

end Lookup

/-- `*Addr`, and the symbols read. -/
def getFunction (kernel : KernelImage) (memory : Memory) (functionName : Bytes) : Nat × List SymbolRead :=
  let found := symbolCommands kernel memory (wordAt memory 4 (kernel.data + 16)) (if kernel.is64Bit then 32 else 28)
    ⟨0, 0, 0, 0, 0, 0⟩
  if found.linkeditaddr ≠ 0 ∧ found.symoff ≠ 0 then
    symbolLoop memory functionName (u32 ((found.linkeditaddr : Int) + (found.stroff - found.linkeditfileoff))) found.nsyms
      (u32 ((found.linkeditaddr : Int) + (found.symoff - found.linkeditfileoff)))
  else (0, [])

/-- What is stored and where, and what was read for the two names. -/
structure Divert where
  stored : Option (Nat × Bytes)
  dstReads : List SymbolRead
  srcReads : List SymbolRead

/-- `delta`, by the order of the two functions. -/
def jumpDelta (srcAddr dstAddr : Nat) : Nat :=
  if dstAddr < srcAddr then u32 (0xFFFFFFFF - ((srcAddr : Int) - dstAddr) - 4) else u32 ((dstAddr : Int) - srcAddr - 5)

def divertLogFunction (kernel : KernelImage) (memory : Memory) (srcName dstName : Bytes) : Divert :=
  let dst := getFunction kernel memory dstName
  let src := getFunction kernel memory srcName
  if dst.1 = 0 ∨ src.1 = 0 then ⟨none, dst.2, src.2⟩
  else
    let delta := jumpDelta src.1 dst.1
    ⟨some (src.1, [0xE9, wordByte delta 0, wordByte delta 1, wordByte delta 2, wordByte delta 3, 0xC3]), dst.2, src.2⟩

/-! ### The symbols of a kernel -/

section Kernel

variable (kernel : KernelImage) (memory : Memory)

def IsLinkedit (i : Nat) : Prop :=
  wordAt memory 4 (commandAt kernel memory i) = 0x19 ∧
    isNamed memory (commandAt kernel memory i + 8) (ascii "__LINKEDIT") = true

/-- An address of the kernel, where it was loaded; relocated as `GetSection` does it. -/
def loadedAt (addr : Nat) : Nat := if addr = 0 then 0 else (addr + kernel.relocBase) % 2 ^ 32

variable (linkedit symtab : Nat)

def linkeditAddr : Nat := wordAt memory 8 (commandAt kernel memory linkedit + 24)
def linkeditFileOff : Nat := wordAt memory 8 (commandAt kernel memory linkedit + 40)
def linkeditFileSize : Nat := wordAt memory 8 (commandAt kernel memory linkedit + 48)
def symOff : Nat := wordAt memory 4 (commandAt kernel memory symtab + 8)
def nSyms : Nat := wordAt memory 4 (commandAt kernel memory symtab + 12)
def strOff : Nat := wordAt memory 4 (commandAt kernel memory symtab + 16)
def strSize : Nat := wordAt memory 4 (commandAt kernel memory symtab + 20)

/-- Where a byte of the file that belongs to `__LINKEDIT` was loaded. -/
def loadedOff (off : Nat) : Nat :=
  loadedAt kernel (linkeditAddr kernel memory linkedit) + (off - linkeditFileOff kernel memory linkedit)

def symbolAt (k : Nat) : Nat := loadedOff kernel memory linkedit (symOff kernel memory symtab) + 16 * k
def stringsAt : Nat := loadedOff kernel memory linkedit (strOff kernel memory symtab)

/-- A 64-bit kernel with one segment `__LINKEDIT`, which has no sections, and one symbol table, which lies in it with its
strings; each name ends in the strings, and `__LINKEDIT` was loaded below 4 GB. -/
structure HasSymbols : Prop where
  is64 : kernel.is64Bit = true
  magic : wordAt memory 4 kernel.data = 0xfeedfacf
  commandsFit : kernel.data + commandOffset kernel memory (commandCount kernel memory) < 2 ^ 32
  linkedit_lt : linkedit < commandCount kernel memory
  linkedit_iff : ∀ i < commandCount kernel memory, IsLinkedit kernel memory i ↔ i = linkedit
  noSections : wordAt memory 4 (commandAt kernel memory linkedit + 64) = 0
  symtab_lt : symtab < commandCount kernel memory
  symtab_iff : ∀ i < commandCount kernel memory, wordAt memory 4 (commandAt kernel memory i) = 2 ↔ i = symtab
  symbolsInside : linkeditFileOff kernel memory linkedit ≤ symOff kernel memory symtab ∧
    symOff kernel memory symtab + 16 * nSyms kernel memory symtab ≤
      linkeditFileOff kernel memory linkedit + linkeditFileSize kernel memory linkedit
  stringsInside : linkeditFileOff kernel memory linkedit ≤ strOff kernel memory symtab ∧
    strOff kernel memory symtab + strSize kernel memory symtab ≤
      linkeditFileOff kernel memory linkedit + linkeditFileSize kernel memory linkedit
  loadedLow : loadedAt kernel (linkeditAddr kernel memory linkedit) + linkeditFileSize kernel memory linkedit < 2 ^ 32
  terminated : ∀ k < nSyms kernel memory symtab, ∃ n, wordAt memory 4 (symbolAt kernel memory linkedit symtab k) ≤ n ∧
    n < strSize kernel memory symtab ∧ memory (stringsAt kernel memory linkedit symtab + n) = 0

/-- The first symbol of that name. -/
def IsFirst (name : Bytes) (k : Nat) : Prop :=
  k < nSyms kernel memory symtab ∧
    isSymbol memory name (stringsAt kernel memory linkedit symtab) (symbolAt kernel memory linkedit symtab k) = true ∧
    ∀ j < k, ¬isSymbol memory name (stringsAt kernel memory linkedit symtab) (symbolAt kernel memory linkedit symtab j) = true

def Missing (name : Bytes) : Prop := ∀ k, ¬IsFirst kernel memory linkedit symtab name k

/-- Where the function of a symbol was loaded. -/
def functionAt (k : Nat) : Nat := loadedAt kernel (wordAt memory 8 (symbolAt kernel memory linkedit symtab k + 8))

/-- The symbols read are the first ones of the loaded table, and of each its name was read where it was loaded. -/
def ReadsSymbols (reads : List SymbolRead) : Prop :=
  (∃ n ≤ nSyms kernel memory symtab,
      reads.map SymbolRead.entry = (List.range n).map fun k => symbolAt kernel memory linkedit symtab k) ∧
    ∀ read ∈ reads, read.name = stringsAt kernel memory linkedit symtab + wordAt memory 4 read.entry ∧
      read.name + read.nameLength ≤ stringsAt kernel memory linkedit symtab + strSize kernel memory symtab

/-- The six bytes are a near jump from `src` to `dst` with a byte behind it, if the distance is below 2 GB. -/
def JumpsTo (src dst : Nat) (bytes : Bytes) : Prop :=
  ∃ b0 b1 b2 b3, bytes = [0xE9, b0, b1, b2, b3, 0xC3] ∧
    (-2 ^ 31 < (dst : Int) - src → (dst : Int) - src < 2 ^ 31 →
      src + 5 + i32 (b0.toNat + 256 * b1.toNat + 256 ^ 2 * b2.toNat + 256 ^ 3 * b3.toNat) = dst)

/-- Without one of the names nothing is stored, otherwise a jump over the loaded function, and nothing is read but the
loaded symbols. -/
def Diverts (srcName dstName : Bytes) : Prop :=
  ReadsSymbols kernel memory linkedit symtab (divertLogFunction kernel memory srcName dstName).dstReads ∧
    ReadsSymbols kernel memory linkedit symtab (divertLogFunction kernel memory srcName dstName).srcReads ∧
    (Missing kernel memory linkedit symtab srcName ∨ Missing kernel memory linkedit symtab dstName →
      (divertLogFunction kernel memory srcName dstName).stored = none) ∧
    ∀ i j, IsFirst kernel memory linkedit symtab srcName i → IsFirst kernel memory linkedit symtab dstName j →
      ∃ bytes, (divertLogFunction kernel memory srcName dstName).stored =
          some (functionAt kernel memory linkedit symtab i, bytes) ∧
        JumpsTo (functionAt kernel memory linkedit symtab i) (functionAt kernel memory linkedit symtab j) bytes

/-- The table is found: the addresses are not the 0 that stands for none. -/
def Found : Prop := linkeditAddr kernel memory linkedit % 2 ^ 32 ≠ 0 ∧ symOff kernel memory symtab ≠ 0

/-- Two functions between which the jump is one: neither is at 0, and the displacement from behind the jump fits. -/
def Reachable (src dst : Nat) : Prop := src ≠ 0 ∧ dst ≠ 0 ∧ ¬(2 ^ 31 < (src : Int) - dst + 5 ∧ (src : Int) - dst < 2 ^ 31)

/-- There are no symbols; or the table is not found, and a name is not in it; or the kernel is where it was linked, and if
both names are there, the functions can be reached. -/
def DivertCondition (srcName dstName : Bytes) : Prop :=
  nSyms kernel memory symtab = 0 ∨
    (¬Found kernel memory linkedit symtab ∧
      (Missing kernel memory linkedit symtab srcName ∨ Missing kernel memory linkedit symtab dstName)) ∨
    (Found kernel memory linkedit symtab ∧ kernel.relocBase % 2 ^ 32 = 0 ∧
      ∀ i j, IsFirst kernel memory linkedit symtab srcName i → IsFirst kernel memory linkedit symtab dstName j →
        Reachable (functionAt kernel memory linkedit symtab i) (functionAt kernel memory linkedit symtab j))

end Kernel

end BareBoot.Kernel
