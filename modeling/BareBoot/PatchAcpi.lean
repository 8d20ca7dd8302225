import BareBoot.DsdtRegions

/-! `PatchACPI` of `AcpiPatcher.c`. Memory allocation, file loading and the configuration table come
from the environment. A run without a result has followed a `NULL` or dangling pointer or written
outside an object. -/

namespace BareBoot.Acpi

inductive TableGuid
  | acpi20
  | acpi10
  | other
  deriving DecidableEq, Repr

structure File where
  size : Nat
  byte : Nat → UInt8

/-- The settings `PatchACPI` reads. -/
structure Settings where
  resetAddr : Nat
  resetVal : Nat
  pmProfile : Nat
  patchDsdt : List Patch
  fixRegions : Bool
  dropDmar : Bool
  acpiDropTables : List (Nat × Nat)
  dropSsdt : Bool

/-- What one run is given: the configuration table, the settings, the files found on the disk and the
answers of `AllocatePages`. -/
structure Environment where
  configurationTable : List (TableGuid × Nat)
  settings : Settings
  xsdtPages : Except Status Pages
  fadtPages : Except Status Pages
  dsdtFile : Option File
  dsdtPages : Except Status Pages
  tableFiles : List (Option (File × Except Status Pages))

def fadtSignature : Nat := 0x50434146
def dmarSign : Nat := 0x52414d44
def ssdtSignature : Nat := 0x54445353

/-- An ACPI 2.0 table ends the search, an ACPI 1.0 one is kept until then. -/
def findRsdPointer : List (TableGuid × Nat) → Nat → Nat
  | [], found => found
  | (.acpi20, table) :: _, _ => table
  | (.acpi10, table) :: rest, _ => findRsdPointer rest table
  | (.other, _) :: rest, found => findRsdPointer rest found

/-! ### The new XSDT -/

/-- `"APPLE  "`, six bytes of it. -/
def apple : Nat → UInt8 := fun i => [65, 80, 80, 76, 69, 32].getD i 0

def copyEntries (rsdt : Block) : Nat → Nat → Nat → Block → Block
  | 0, _, _, xsdt => xsdt
  | count + 1, pEntryR, pEntryX, xsdt =>
      if rsdt.word 4 pEntryR ≠ 0 then
        copyEntries rsdt count (pEntryR + 4) (pEntryX + 8)
          ((xsdt.store 8 pEntryX 0).write pEntryX 4 fun i => rsdt.byte (pEntryR + i))
      else copyEntries rsdt count (pEntryR + 4) pEntryX (shorten 8 xsdt)

def xsdtHeader (rsdt : Block) (pages : Pages) : Block :=
  ((((((((Block.fresh 4096 pages.content).store 4 0 0x54445358).store 4 4 (entryCount 4 rsdt * 8 + 36)).store 1 8 1
    ).write 10 6 apple).store 8 16 (rsdt.word 8 16)).store 4 24 (rsdt.word 4 24)).store 4 28 (rsdt.word 4 28)
    ).store 4 32 (rsdt.word 4 32)

def newXsdt (rsdt : Block) (pages : Pages) : Block :=
  copyEntries rsdt (entryCount 4 rsdt) 36 36 (xsdtHeader rsdt pages)

/-- The RSDP with the address of the XSDT and its checksum. -/
def newRsdp (rsdp : Block) (pages : Pages) : Block := (rsdp.store 8 24 pages.address).checksum 8 20

/-- The loop of `ScanXSDT`: the place of the entry, or `NULL`. -/
def scanEntries (sig : Nat) (xsdt : Block) (memory : Heap) : Nat → Nat → Option (Option Nat)
  | 0, _ => some none
  | count + 1, basePtr => do
      let table ← memory (xsdt.word 8 basePtr)
      if signature table = sig then some (some basePtr) else scanEntries sig xsdt memory count (basePtr + 8)

def scanXsdt (sig : Nat) (s : Tables) : Option (Option Nat) := do
  let xsdt ← s.memory s.xsdt
  scanEntries sig xsdt s.memory (entryCount 8 xsdt) 36

/-! ### The new FADT -/

/-- A generic address structure. -/
def storeAddress (off bitWidth access address : Nat) (fadt : Block) : Block :=
  ((((fadt.store 1 off 1).store 1 (off + 1) bitWidth).store 1 (off + 2) 0).store 1 (off + 3) access).store 8 (off + 4)
    address

/-- An extra block is the old one's address in a generic address structure. -/
def extraBlock (off bitWidth access old : Nat) (fadt : Block) : Block :=
  storeAddress off bitWidth access (fadt.word 4 old) fadt

/-- `Flags |= EFI_ACPI_4_0_RESET_REG_SUP`. -/
def resetSupported (fadt : Block) : Block := fadt.store 4 112 (fadt.word 4 112 ||| 0x400)

/-- Header, power management and boot fields of a table that is filled up. -/
def plainFields (fadt : Block) : Block :=
  (((((((((fadt.store 4 4 0xF4).store 1 8 4).store 1 44 0).store 1 55 0).store 1 94 0x10).store 1 95 0x85).store 2 109 3
    ).store 1 129 0).store 1 130 0).store 1 131 0

def resetRegister (settings : Settings) (fadt : Block) : Block :=
  let fadt := (((fadt.store 1 116 1).store 1 117 8).store 1 118 0).store 1 119 1
  let fadt := if settings.resetAddr = 0 then fadt.store 8 120 0x64 else fadt
  if settings.resetVal = 0 then fadt.store 1 128 0xFE else fadt

/-- What a FADT of revision 1, or a short one, is filled up with. -/
def upgradeFadt (settings : Settings) (fadt : Block) : Block :=
  fadt |> plainFields |> resetSupported |> resetRegister settings
    |> extraBlock 148 0x20 3 56 |> extraBlock 160 0 0 60 |> extraBlock 172 0x10 2 64 |> extraBlock 184 0 0 68
    |> extraBlock 196 8 0 72 |> extraBlock 208 0x20 3 76 |> extraBlock 220 0x80 1 80 |> extraBlock 232 0 1 84

def setDsdt (fadt : Block) (dsdt : Nat) : Block := (fadt.store 8 140 dsdt).store 4 40 dsdt

/-- The fields every new FADT gets. -/
def fadtFields (settings : Settings) (biosDsdt : Nat) (fadt : Block) : Block :=
  let fadt := fadt.write 10 6 apple
  let fadt := if settings.pmProfile ≠ 0 then fadt.store 1 45 settings.pmProfile else fadt
  let fadt :=
    if settings.resetAddr ≠ 0 ∧ settings.resetVal ≠ 0 then
      ((resetSupported fadt).store 8 120 settings.resetAddr).store 1 128 settings.resetVal
    else fadt
  setDsdt fadt biosDsdt

def newFadt (settings : Settings) (biosDsdt : Nat) (fadt : Block) (pages : Pages) : Block :=
  let copy := (Block.fresh 4096 pages.content).write 0 (length fadt) fadt.byte
  fadtFields settings biosDsdt (if copy.word 1 8 = 1 ∨ length copy < 0xF4 then upgradeFadt settings copy else copy)

/-- `FirmwareCtrl` and `XFirmwareCtrl` after the DSDT. -/
def facsFields (facs : Nat) (fadt : Block) : Block :=
  let xFirmwareCtrl := fadt.word 8 132
  let fadt := if facs ≠ 0 then fadt.store 4 36 facs else fadt
  if fadt.word 4 36 ≠ 0 then fadt.store 8 132 (fadt.word 4 36)
  else if fadt.word 8 132 ≠ 0 then fadt.store 4 36 xFirmwareCtrl
  else fadt

/-! ### The DSDT -/

/-- The DSDT of the disk in its pages, with its regions fixed where that is asked for. -/
def loadedDsdt (settings : Settings) (biosDsdt : Nat) (file : File) (pages : Pages) (memory : Heap) : Option Block :=
  let dsdt := (Block.fresh (4096 * sizeToPages file.size) pages.content).write 0 file.size file.byte
  if settings.fixRegions ∧ biosDsdt ≠ 0 then do
    let bios ← memory biosDsdt
    let fixed := fixRegions (getBiosRegions bios.byte (length bios)) dsdt (file.size % 2 ^ 32)
    some (fixed.checksum 9 file.size)
  else some dsdt

/-- The DSDT of the firmware in its new place, patched. -/
def patchedDsdt (settings : Settings) (bios : Block) (pages : Pages) : Option Block := do
  let fixed ← fixDsdt settings.patchDsdt (dsdtBuffer bios.byte (length bios) pages.content) (length bios)
  some ((fixed.1.store 4 4 fixed.2).checksum 9 fixed.2)

def patchDsdt (env : Environment) (biosDsdt : Nat) (memory : Heap) (fadt : Block) : Option (Heap × Block) :=
  if env.settings.patchDsdt.length = 0 ∨ biosDsdt = 0 then
    match env.dsdtFile, env.dsdtPages with
    | some file, .ok pages => do
        let dsdt ← loadedDsdt env.settings biosDsdt file pages memory
        let memory ← memory.put pages.address dsdt
        some (memory, setDsdt fadt pages.address)
    | _, _ => some (memory, fadt)
  else do
    let bios ← memory biosDsdt
    match env.dsdtPages with
    | .ok pages => do
        let dsdt ← patchedDsdt env.settings bios pages
        let memory ← memory.put pages.address dsdt
        some (memory, setDsdt fadt pages.address)
    | .error _ => some (memory, fadt)

/-! ### The FADT step -/

/-- `Entry` of a root that is there. -/
def setFirst (w root value : Nat) (memory : Heap) : Option Heap :=
  if root = 0 then some memory
  else do
    let table ← memory root
    memory.put root (table.store w 36 value)

def biosDsdt (fadt : Block) : Nat := if fadt.word 4 40 = 0 then fadt.word 8 140 else fadt.word 4 40

def firmwareCtrl (fadt : Block) : Nat := fadt.word 4 36

def patchFadt (env : Environment) (fadtPointer : Nat) (s : Tables) : Option Tables := do
  let fadt ← s.memory fadtPointer
  match env.fadtPages with
  | .error _ => some s
  | .ok pages => do
      let patched ← patchDsdt env (biosDsdt fadt) s.memory (newFadt env.settings (biosDsdt fadt) fadt pages)
      let facs ← patched.1 (firmwareCtrl fadt)
      let memory ← patched.1.put (firmwareCtrl fadt) (facs.store 1 32 2)
      let new := facsFields (firmwareCtrl fadt) patched.2
      let memory ← memory.put pages.address (new.checksum 9 (length new))
      let memory ← setFirst 4 s.rsdt pages.address memory
      let memory ← setFirst 8 s.xsdt pages.address memory
      some { s with memory }

/-! ### The run -/

/-- The roots before the FADT step and the FADT, or the status of an early return. -/
def openTables (env : Environment) (memory : Heap) : Option (Except Status (Tables × Nat)) :=
  let rsdPointer := findRsdPointer env.configurationTable 0
  if rsdPointer = 0 then some (.error .unsupported)
  else do
    let rsdp ← memory rsdPointer
    match env.xsdtPages with
    | .error _ => some (.error .outOfResources)
    | .ok pages => do
        let rsdt ← memory (rsdp.word 4 16)
        let memory ← memory.put pages.address (newXsdt rsdt pages)
        let memory ← memory.put rsdPointer (newRsdp rsdp pages)
        let s : Tables := ⟨rsdp.word 4 16, pages.address, memory⟩
        let found ← scanXsdt fadtSignature s
        -- `NULL` is dereferenced here
        let entryPtr ← found
        let xsdt ← memory pages.address
        if xsdt.word 8 entryPtr = 0 then some (.error .notFound) else some (.ok (s, xsdt.word 8 entryPtr))

/-- The run up to and with the FADT step. -/
def toFadt (env : Environment) (memory : Heap) : Option (Except Status Tables) := do
  match ← openTables env memory with
  | .error status => some (.error status)
  | .ok (s, fadtPointer) => (patchFadt env fadtPointer s).map .ok

def dropBoth (sig tableId : Nat) (s : Tables) : Option Tables := do
  let dropped ← dropTableFromRsdt sig tableId s
  let dropped' ← dropTableFromXsdt sig tableId dropped.1
  some dropped'.1

def onlyIf (setting : Bool) (call : Tables → Option Tables) (s : Tables) : Option Tables :=
  if setting then call s else some s

def dropTables (settings : Settings) (s : Tables) : Option Tables := do
  let s ← onlyIf settings.dropDmar (dropBoth dmarSign 0) s
  let s ← settings.acpiDropTables.foldlM (fun s table => dropBoth table.1 table.2 s) s
  onlyIf settings.dropSsdt (dropBoth ssdtSignature 0) s

def loadTable (s : Tables) (file : Option (File × Except Status Pages)) : Option Tables :=
  match file with
  | none => some s
  | some (file, allocated) => (insertTable (some file.byte) file.size allocated s).map Prod.fst

def sumRoot (root : Nat) (memory : Heap) : Option Heap :=
  if root = 0 then some memory
  else do
    let table ← memory root
    memory.put root (table.checksum 9 (length table))

def patchAcpi (env : Environment) (memory : Heap) : Option (Except Status Tables) := do
  match ← toFadt env memory with
  | .error status => some (.error status)
  | .ok s => do
      let s ← dropTables env.settings s
      let s ← env.tableFiles.foldlM loadTable s
      let memory ← sumRoot s.rsdt s.memory
      let memory ← sumRoot s.xsdt memory
      some (.ok { s with memory })

end BareBoot.Acpi
