import BareBoot.KextSearch

/-! The prelinked kexts of `kext_patcher.c`. Everything the patcher writes is in the flat memory, the
identifier of the kext among it; the settings are not. A missing name is a `NULL` pointer, and what stands
at address zero is read for it. -/

namespace BareBoot.Kext

open Plist

/-- One slot of the arrays `AnyKext`, `AnyKextInfoPlistPatch`, `AnyKextDataLen`, `AnyKextData` and
`AnyKextPatch`. -/
structure KextPatch where
  name : Option Bytes
  infoPlistPatch : Bool
  dataLen : Nat
  data : Nat → UInt8
  patch : Nat → UInt8

/-- The address of `gKextBundleIdentifier`, the filled slots and the two offsets of the kernel. -/
structure Patcher where
  bundleIdentifier : Nat
  kexts : List KextPatch
  kernelSlide : Nat
  kernelRelocBase : Nat

def dictTag : Bytes := ascii "<dict>"
def dictEndTag : Bytes := ascii "</dict>"
def bundleIdentifierKey : Bytes := ascii "<key>CFBundleIdentifier</key>"

/-! ### The identifier -/

/-- Advance to the next tag or to the end of the text. -/
def nextTag (memory : Memory) : Nat → Nat → Option Nat
  | 0, _ => none
  | rounds + 1, tag => if memory tag ≠ 60 ∧ memory tag ≠ 0 then nextTag memory rounds (tag + 1) else some tag

/-- The identifier behind its key: where it starts and its length, as far as both were found. -/
def bundleString (memory : Memory) (plist plistSize tag : Nat) : Option (Nat × Option Nat) :=
  (searchMemory memory (tag + 29) (u32 (plistSize - 29 - ((tag : Int) - plist))) (ascii "<string>")).map fun found =>
    (found + 8, searchMemory memory (found + 8) (u32 (plistSize - (((found + 8 : Nat) : Int) - plist))) (ascii "</string>"))

/-- The loop over the tags, with `gKextBundleIdLength` as it is so far. -/
def identifierLoop (bundleIdentifier plist plistSize : Nat) : Nat → Nat → Int → Nat → Memory → Option (Memory × Nat)
  | 0, _, _, _, _ => none
  | rounds + 1, tag, dictLevel, idLength, memory =>
      if memory tag = 0 then some (memory, idLength)
      else if holds memory tag dictTag then do
        let tag ← nextTag memory (rounds + 1) (tag + 6)
        identifierLoop bundleIdentifier plist plistSize rounds tag (dictLevel + 1) idLength memory
      else if holds memory tag dictEndTag then do
        let tag ← nextTag memory (rounds + 1) (tag + 7)
        identifierLoop bundleIdentifier plist plistSize rounds tag (dictLevel - 1) idLength memory
      else if dictLevel = 1 ∧ holds memory tag bundleIdentifierKey then
        match bundleString memory plist plistSize tag with
        | none => do
            let tag ← nextTag memory (rounds + 1) (tag + 1)
            identifierLoop bundleIdentifier plist plistSize rounds tag dictLevel idLength memory
        | some (start, none) => do
            let tag ← nextTag memory (rounds + 1) (tag + 1)
            identifierLoop bundleIdentifier plist plistSize rounds tag dictLevel (u32 (-start)) memory
        | some (start, some last) =>
            let idLength := u32 ((last : Int) - start)
            if idLength < 256 then
              some (store (store memory bundleIdentifier (bytesAt memory start idLength)) (bundleIdentifier + idLength) [0],
                idLength)
            else do
              let tag ← nextTag memory (rounds + 1) (tag + 1)
              identifierLoop bundleIdentifier plist plistSize rounds tag dictLevel idLength memory
      else do
        let tag ← nextTag memory (rounds + 1) (tag + 1)
        identifierLoop bundleIdentifier plist plistSize rounds tag dictLevel idLength memory

/-- The text ends within 4 GiB. -/
def extractKextBundleIdentifier (bundleIdentifier plist plistSize : Nat) (memory : Memory) : Option (Memory × Nat) :=
  let memory := store memory bundleIdentifier [0]
  match searchMemory memory plist plistSize dictTag with
  | none => some (memory, 0)
  | some tag => identifierLoop bundleIdentifier plist plistSize (2 ^ 32) (tag + 6) 1 0 memory

/-! ### Patches -/

def KextPatch.find (patch : KextPatch) : Bytes := (List.range patch.dataLen).map patch.data
def KextPatch.replace (patch : KextPatch) : Bytes := (List.range patch.dataLen).map patch.patch

def anyKextPatch (driver driverSize infoPlist infoPlistSize : Nat) (patch : KextPatch) (memory : Memory) : Option Memory :=
  if patch.infoPlistPatch then
    if infoPlist = 0 ∨ infoPlistSize = 0 then some memory
    else (searchAndReplace memory infoPlist infoPlistSize patch.find patch.replace (-1)).map Prod.fst
  else if driver = 0 ∨ driverSize = 0 then some memory
  else (searchAndReplace memory driver driverSize patch.find patch.replace (-1)).map Prod.fst

/-- What the loop of `PatchKext` does with one slot. -/
def patchSlot (bundleIdentifier idLength driver driverSize infoPlist infoPlistSize : Nat) (memory : Memory)
    (patch : KextPatch) : Option Memory :=
  if patch.dataLen < 1 then some memory
  else
    match searchMemory memory bundleIdentifier idLength (patch.name.getD (textAt memory (2 ^ 32) 0)) with
    | none => some memory
    | some _ => anyKextPatch driver driverSize infoPlist infoPlistSize patch memory

def patchKext (patcher : Patcher) (driver driverSize infoPlist infoPlistSize : Nat) (memory : Memory) : Option Memory := do
  let extracted ← extractKextBundleIdentifier patcher.bundleIdentifier infoPlist infoPlistSize memory
  patcher.kexts.foldlM
    (patchSlot patcher.bundleIdentifier extracted.2 driver driverSize infoPlist infoPlistSize) extracted.1

/-! ### Integers of the plist -/

/-- The value, and where the key and the tags of the value were found, with their lengths. -/
structure HexValue where
  value : Nat
  matched : List (Nat × Nat)

/-- The value of a definition in the whole plist. -/
def referencedValue (memory : Memory) (id : Bytes) (wholePlist wholeSize : Nat) : Nat :=
  match searchMemory memory wholePlist wholeSize (ascii "<integer ID=\"" ++ cstr id ++ ascii "\"") with
  | none => 0
  | some intTag =>
      match searchMemory memory intTag (u32 (wholeSize - ((intTag : Int) - wholePlist))) (ascii ">") with
      | none => 0
      | some value =>
          if memory (value - 1) = 47 then 0 else asciiStrHexToUint64 (cstr (bytesAt memory (value + 1) 20))

/-- `SearchMemory (at, (UINT32) (at - Plist), search)`: as many bytes as lie in front. -/
def searchOn (memory : Memory) (plist place : Nat) (search : Bytes) : Option Nat :=
  searchMemory memory place (u32 ((place : Int) - plist)) search

def getPlistHexValue (memory : Memory) (plist plistSize : Nat) (key : Bytes) (wholePlist wholeSize : Nat) : HexValue :=
  match searchMemory memory plist plistSize key with
  | none => ⟨0, []⟩
  | some keyAt =>
      match searchOn memory plist keyAt (ascii "<integer") with
      | none => ⟨0, [(keyAt, key.length)]⟩
      | some intTag =>
          match searchOn memory plist intTag (ascii ">") with
          | none => ⟨0, [(keyAt, key.length), (intTag, 8)]⟩
          | some value =>
              if memory (value - 1) ≠ 47 then
                ⟨asciiStrHexToUint64 (textAt memory (2 ^ 32) (value + 1)), [(keyAt, key.length), (intTag, 8), (value, 1)]⟩
              else if searchOn memory plist intTag (ascii "<integer IDREF=\"") ≠ some intTag then
                ⟨0, [(keyAt, key.length), (intTag, 8), (value, 1)]⟩
              else
                -- `NULL + 1` where no quote is found
                let idStart := (searchOn memory plist intTag (ascii "\"")).getD 0 + 1
                match searchOn memory plist idStart (ascii "\"") with
                | none => ⟨0, [(keyAt, key.length), (intTag, 16), (value, 1), (idStart - 1, 1)]⟩
                | some idEnd =>
                    ⟨if 8 < idEnd - idStart then 0
                      else referencedValue memory (bytesAt memory idStart (idEnd - idStart)) wholePlist wholeSize,
                    [(keyAt, key.length), (intTag, 16), (value, 1), (idStart - 1, 1), (idEnd, 1)]⟩

/-! ### The kexts -/

def prelinkExecutableSourceKey : Bytes := ascii "_PrelinkExecutableSourceAddr"
def prelinkExecutableSizeKey : Bytes := ascii "_PrelinkExecutableSize"

/-- One call of `PatchKext`, with memory before and after it. -/
structure KextCall where
  driver : Nat
  driverSize : Nat
  infoPlist : Nat
  infoPlistSize : Nat
  before : Memory
  after : Memory

/-- The end of a kext's dict: its text is terminated while the kext is patched. -/
def patchPrelinked (patcher : Patcher) (wholePlist prelinkInfoSize start last : Nat) (memory : Memory) :
    Option (Memory × KextCall) := do
  let savedValue := memory last
  let terminated := store memory last [0]
  let infoPlistSize := u32 ((last : Int) - start)
  let kextAddr := u32 (getPlistHexValue terminated start infoPlistSize prelinkExecutableSourceKey wholePlist
    prelinkInfoSize).value
  let kextAddr := u32 (kextAddr + patcher.kernelSlide + patcher.kernelRelocBase)
  let kextSize := u32 (getPlistHexValue terminated start infoPlistSize prelinkExecutableSizeKey wholePlist
    prelinkInfoSize).value
  let patched ← patchKext patcher kextAddr kextSize start infoPlistSize terminated
  some (store patched last [savedValue], ⟨kextAddr, kextSize, start, infoPlistSize, terminated, patched⟩)

def called (call : KextCall) (run : Memory × List KextCall) : Memory × List KextCall := (run.1, call :: run.2)

/-- The loop over the places of `dict>`; the saved start is `NULL` before the first kext. -/
def scanDicts (patcher : Patcher) (wholePlist prelinkInfoSize : Nat) :
    Nat → Nat → Nat → Int → Option Nat → Memory → Option (Memory × List KextCall)
  | 0, _, _, _, _, _ => none
  | rounds + 1, dictPtr, range, dictLevel, infoPlistStart, memory =>
      match searchMemory memory dictPtr range (ascii "dict>") with
      | none => some (memory, [])
      | some found =>
          let range := u32 (prelinkInfoSize - (((found + 5 : Nat) : Int) - wholePlist))
          if memory (found - 1) = 60 then
            scanDicts patcher wholePlist prelinkInfoSize rounds (found + 5) range (dictLevel + 1)
              (if dictLevel + 1 = 2 then some (found - 1) else infoPlistStart) memory
          else if memory (found - 2) = 60 ∧ memory (found - 1) = 47 then
            match infoPlistStart with
            | none => scanDicts patcher wholePlist prelinkInfoSize rounds (found + 5) range (dictLevel - 1) none memory
            | some start =>
                if dictLevel = 2 then do
                  let patched ← patchPrelinked patcher wholePlist prelinkInfoSize start (found + 5) memory
                  Option.map (called patched.2) <|
                    scanDicts patcher wholePlist prelinkInfoSize rounds (found + 5) range (dictLevel - 1) (some start)
                      patched.1
                else
                  scanDicts patcher wholePlist prelinkInfoSize rounds (found + 5) range (dictLevel - 1) (some start) memory
          else scanDicts patcher wholePlist prelinkInfoSize rounds (found + 5) range dictLevel infoPlistStart memory

/-- Each round goes at least five bytes on. -/
def patchPrelinkedKexts (patcher : Patcher) (prelinkInfoAddr prelinkInfoSize : Nat) (memory : Memory) :
    Option (Memory × List KextCall) :=
  scanDicts patcher prelinkInfoAddr prelinkInfoSize (prelinkInfoSize + 1) prelinkInfoAddr prelinkInfoSize 0 none memory

end BareBoot.Kext
