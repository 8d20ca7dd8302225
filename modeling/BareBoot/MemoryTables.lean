import BareBoot.PlistNumber
import BareBoot.Word

/-! The memory structures of the rebuilt SMBIOS: `ScanSPD` of `spd.c` and `PatchMemoryTables` of `smbios.c`. The original
structures are listed by type, each list in the order of the table, and a structure is its fields and its strings. The
arrays have an element for each of `MAX_RAM_SLOTS` slots; a subscript that is no slot ends the run with `none`. -/

namespace BareBoot.MemoryTables

open Plist

def maxRamSlots : Nat := 8

/-- An element of an array of slots. -/
def subscript (index : Nat) : Option Nat := if index < maxRamSlots then some index else none

def setAt {α : Type} (array : Nat → α) (index : Nat) (value : α) : Nat → α := fun i => if i = index then value else array i

/-! ### The modules -/

/-- The bytes of a module. -/
abbrev Spd := Nat → UInt8

/-- `RAM_SLOT_INFO`. -/
structure RamSlotInfo where
  type : UInt8 := 0
  moduleSize : UInt32 := 0
  frequency : UInt32 := 0
  vendor : Bytes := []
  partNo : Bytes := []
  serialNo : Bytes := []
  spd : Spd := fun _ => 0
  inUse : Bool := false
  spdSize : UInt16 := 0

/-- `MEM_STRUCTURE`. -/
structure MemStructure where
  spdDetected : Bool := false
  maxMemorySlots : Nat := 0
  memoryModules : Nat := 0
  dimm : Nat → RamSlotInfo := fun _ => {}

/-- What the vendor, the part number, the serial number and the speed of a module are decoded to; the first two read the
bytes again. -/
structure Decoders where
  getDDRPartNum : Spd → Spd → Spd × Bytes
  getVendorName : Spd → Spd → Bytes → Spd × Bytes
  getDDRSerial : Spd → Bytes
  getDDRspeedMhz : Spd → UInt16

/-- A PCI device: its place, and the bytes an SMBus controller there reads, by address and command. -/
structure PciDevice where
  vendorId : UInt16
  bus : Nat
  device : Nat
  function : Nat
  smbReadByteIntel : UInt8 → UInt8 → UInt8

def spdMemToSmbios : List UInt8 := [2, 2, 2, 2, 15, 8, 16, 18, 19, 2, 2, 24]

/-- The shift in the size of a DDR2 module, whose count is an `int`; the processor takes the count modulo 32. -/
def shiftLeftOne (count : Int) : Nat := 2 ^ (u32 count % 32)

/-- `switch (slot->spd[SPD_MEMORY_TYPE])`. -/
def moduleSizeOf (spd : Spd) (moduleSize : UInt32) : UInt32 :=
  if spd 2 = 8 then
    UInt32.ofNat (shiftLeftOne ((spd 3 &&& 0x0F).toNat + (spd 4 &&& 0x0F).toNat - 17) * ((spd 5 &&& 0x07).toNat + 1) *
      (spd 17).toNat)
  else if spd 2 = 11 then
    UInt32.ofNat (shiftLeftOne ((spd 4 &&& 0x0F).toNat + 28 + ((spd 8 &&& 0x07).toNat + 3) - ((spd 7 &&& 0x07).toNat + 25)) *
      ((spd 7 >>> 3 &&& 0x1F).toNat + 1))
  else moduleSize

/-- One round of the loop of `read_smb_intel`. -/
def readSlot (decoders : Decoders) (device : PciDevice) (gRam : MemStructure) (i : Nat) : Option MemStructure := do
  let i ← subscript i
  let adr := UInt8.ofNat (0x50 + i)
  let spdSize := device.smbReadByteIntel adr 0
  let slot := { gRam.dimm i with spdSize := spdSize.toUInt16, inUse := false }
  if spdSize ≠ 0 ∧ spdSize ≠ 0xFF then
    let reading : Spd := fun k => device.smbReadByteIntel adr (UInt8.ofNat k)
    let spd : Spd := fun k => if k < spdSize.toNat then reading k else 0
    let spdType := if spd 2 < 12 then (spd 2).toNat else 0
    let partNo := decoders.getDDRPartNum reading spd
    let vendor := decoders.getVendorName reading partNo.1 partNo.2
    some { gRam with
      spdDetected := true
      dimm := setAt gRam.dimm i { slot with
        inUse := true
        moduleSize := moduleSizeOf spd slot.moduleSize
        type := spdMemToSmbios.getD spdType 0
        partNo := partNo.2
        vendor := vendor.2
        spd := vendor.1
        serialNo := decoders.getDDRSerial vendor.1
        frequency := (decoders.getDDRspeedMhz vendor.1).toUInt32 } }
  else some { gRam with dimm := setAt gRam.dimm i slot }

/-- `read_smb_intel`: with two slots, what is found in the third is taken for the second. -/
def readSmbIntel (decoders : Decoders) (device : PciDevice) (gRam : MemStructure) : Option MemStructure := do
  let maxslots := if gRam.maxMemorySlots ≤ 2 then 3 else gRam.maxMemorySlots
  let gRam ← (List.range maxslots).foldlM (readSlot decoders device) gRam
  let second ← subscript 1
  let third ← subscript 2
  if gRam.maxMemorySlots = 2 ∧ (gRam.dimm second).inUse = false ∧ (gRam.dimm third).inUse = true then
    some { gRam with dimm := setAt gRam.dimm second (gRam.dimm third) }
  else some gRam

/-- The SMBus controller of an Intel chipset. -/
def PciDevice.IsSmbus (device : PciDevice) : Prop :=
  device.vendorId = 0x8086 ∧ device.bus = 0 ∧ device.device = 0x1F ∧ device.function = 3

instance (device : PciDevice) : Decidable device.IsSmbus :=
  inferInstanceAs (Decidable (device.vendorId = 0x8086 ∧ device.bus = 0 ∧ device.device = 0x1F ∧ device.function = 3))

/-- `ScanSPD`. -/
def scanSpd (decoders : Decoders) (devices : List PciDevice) (gRam : MemStructure) : Option MemStructure :=
  devices.foldlM (fun gRam device => if device.IsSmbus then readSmbIntel decoders device gRam else some gRam) gRam

/-! ### The structures -/

/-- Type 16. -/
structure PhysicalMemoryArray where
  handle : UInt16
  numberOfMemoryDevices : UInt16

/-- Type 17. -/
structure MemoryDevice where
  handle : UInt16
  memoryArrayHandle : UInt16
  size : UInt16
  speed : UInt16
  memoryType : UInt8
  deviceLocator : Bytes
  bankLocator : Bytes
  manufacturer : Bytes
  serialNumber : Bytes
  partNumber : Bytes

/-- Type 19. -/
structure MemoryArrayMappedAddress where
  handle : UInt16
  memoryArrayHandle : UInt16
  startingAddress : UInt32
  endingAddress : UInt32
  partitionWidth : UInt8

/-- Type 20. -/
structure MemoryDeviceMappedAddress where
  handle : UInt16
  memoryDeviceHandle : UInt16
  memoryArrayMappedAddressHandle : UInt16
  startingAddress : UInt32
  endingAddress : UInt32

/-- A structure of the new table; type 130 holds the bytes of a module. -/
inductive Record where
  | physicalMemoryArray (structure16 : PhysicalMemoryArray)
  | memoryDevice (structure17 : MemoryDevice)
  | memorySpd (length : UInt8) (handle type17Handle offset size : UInt16) (data : Bytes)
  | memoryArrayMappedAddress (structure19 : MemoryArrayMappedAddress)
  | memoryDeviceMappedAddress (structure20 : MemoryDeviceMappedAddress)

/-- `CUSTOM_SMBIOS_TYPE17`, an element of `gSettings.cMemDevice`. -/
structure CustomDevice where
  inUse : Bool := false
  memoryType : UInt8 := 0
  speed : UInt16 := 0
  size : UInt16 := 0
  deviceLocator : Option Bytes := none
  bankLocator : Option Bytes := none
  manufacturer : Option Bytes := none
  serialNumber : Option Bytes := none
  partNumber : Option Bytes := none

/-- The original table, the settings, the PCI devices, and what stands in the array on the stack that is not cleared. -/
structure Input where
  arrays : List PhysicalMemoryArray
  devices : List MemoryDevice
  mapped : List MemoryArrayMappedAddress
  deviceMapped : List MemoryDeviceMappedAddress
  spdScan : Bool
  cMemDevice : Nat → CustomDevice
  decoders : Decoders
  pciDevices : List PciDevice
  numberOfRecords : UInt16
  handle17 : Nat → UInt16

/-- The local variables of `PatchMemoryTables`, and the new table. -/
structure Patch where
  gRam : MemStructure
  handle16 : UInt16
  handle17 : Nat → UInt16
  memory17 : Nat → UInt16
  totalSystemMemory : UInt32
  numberOfRecords : UInt16
  emitted : List Record

/-- `LogSmbiosTable`. -/
def Patch.log (s : Patch) (record : Record) : Patch :=
  { s with numberOfRecords := s.numberOfRecords + 1, emitted := s.emitted ++ [record] }

/-- A device with what its module says about itself. -/
def withModule (slot : RamSlotInfo) (device : MemoryDevice) : MemoryDevice :=
  if slot.inUse = true then
    { device with
      memoryType := if slot.type ≠ 2 ∧ slot.type ≠ 1 ∧ slot.type ≠ 0 then slot.type else device.memoryType
      manufacturer := if slot.vendor ≠ [] then slot.vendor else device.manufacturer
      serialNumber := if slot.serialNo ≠ [] then slot.serialNo else device.serialNumber
      partNumber := if slot.partNo ≠ [] then slot.partNo else device.partNumber
      speed := if 0 < slot.frequency then slot.frequency.toUInt16 else device.speed
      size := if 0 < slot.moduleSize then slot.moduleSize.toUInt16 else device.size }
  else { device with speed := 0, size := 0, memoryType := 2 }

/-- A device without a module that could be read, and with the defaults for what is not said. -/
def withDefaults (device : MemoryDevice) : MemoryDevice :=
  { device with
    memoryType :=
      if 0 < device.size ∧ (device.memoryType = 0 ∨ device.memoryType = 1 ∨ device.memoryType = 2) then 18
      else device.memoryType
    manufacturer := if device.manufacturer = [] then ascii "unknown" else device.manufacturer
    serialNumber := if device.serialNumber = [] then ascii "unknown" else device.serialNumber
    partNumber := if device.partNumber = [] then ascii "unknown" else device.partNumber }

/-- What the settings say about a device. -/
def withSettings (custom : CustomDevice) (device : MemoryDevice) : MemoryDevice :=
  if custom.inUse = true then
    { device with
      memoryType := if custom.memoryType ≠ 2 then custom.memoryType else device.memoryType
      speed := if custom.speed ≠ 0 then custom.speed else device.speed
      size := if custom.size ≠ 0xFFFF then custom.size else device.size
      deviceLocator := custom.deviceLocator.getD device.deviceLocator
      bankLocator := custom.bankLocator.getD device.bankLocator
      manufacturer := custom.manufacturer.getD device.manufacturer
      serialNumber := custom.serialNumber.getD device.serialNumber
      partNumber := custom.partNumber.getD device.partNumber }
  else device

/-- `TotalSystemMemory` and `Memory17`, for a size in megabytes. -/
def Patch.count (s : Patch) (index : Nat) (size : UInt16) : Option Patch := do
  if size &&& 0x8000 = 0 then
    let index ← subscript index
    let total := s.totalSystemMemory + size.toUInt32
    some { s with
      totalSystemMemory := total
      memory17 := setAt s.memory17 index (if 0 < size then total.toUInt16 else 0) }
  else some s

/-- Log the structure of a device, and keep its handle. -/
def Patch.logDevice (s : Patch) (index : Nat) (device : MemoryDevice) : Option Patch := do
  let index ← subscript index
  some { s.log (.memoryDevice { device with handle := s.numberOfRecords }) with
    handle17 := setAt s.handle17 index s.numberOfRecords }

/-- The type 130 of a module. -/
def Patch.logSpd (s : Patch) (index : Nat) : Option Patch := do
  let index ← subscript index
  let slot := s.gRam.dimm index
  if slot.inUse = true ∧ slot.spd 0 ≠ 0 ∧ slot.spd 0 ≠ 0xFF then
    some (s.log (.memorySpd (10 + slot.spdSize.toUInt8) s.numberOfRecords (s.handle17 index) 0 slot.spdSize
      ((List.range slot.spdSize.toNat).map slot.spd)))
  else some s

/-- A round of the loop over the devices. -/
def patchDevice (cMemDevice : Nat → CustomDevice) (devices : List MemoryDevice) (s : Patch) (index : Nat) : Option Patch :=
  match devices[index]? with
  | none => some s
  | some device =>
      let device := { device with memoryArrayHandle := s.handle16 }
      if s.gRam.spdDetected = true then do
        let slot ← subscript index
        let device := withModule (s.gRam.dimm slot) device
        let s ← s.count index device.size
        let s ← s.logDevice index device
        s.logSpd index
      else do
        let slot ← subscript index
        let device := withSettings (cMemDevice slot) (withDefaults device)
        let s ← s.count index device.size
        s.logDevice index device

/-- A device of that many megabytes in all ends in a range. -/
def EndsIn (memory17 : UInt16) (endingAddress : UInt32) : Prop := (memory17.toUInt32 <<< 10) - 1 ≤ endingAddress

instance (memory17 : UInt16) (endingAddress : UInt32) : Decidable (EndsIn memory17 endingAddress) :=
  inferInstanceAs (Decidable ((memory17.toUInt32 <<< 10) - 1 ≤ endingAddress))

/-- The loop over the devices for a type 20: the first that ends in its range. -/
def findDevice (memory17 : Nat → UInt16) (endingAddress : UInt32) : Nat → Nat → Option (Option Nat)
  | 0, _ => some none
  | left + 1, j => do
      let slot ← subscript j
      if EndsIn (memory17 slot) endingAddress then some (some slot) else findDevice memory17 endingAddress left (j + 1)

/-- A round of the loop over the mapped addresses. -/
def patchMapped (handle19 : UInt16) (s : Patch) (mapped : MemoryDeviceMappedAddress) : Option Patch :=
  if mapped.endingAddress < 2 then some s
  else do
    let found ← findDevice s.memory17 mapped.endingAddress s.gRam.maxMemorySlots 0
    let new := { mapped with memoryArrayMappedAddressHandle := handle19, handle := s.numberOfRecords }
    match found with
    | none => some (s.log (.memoryDeviceMappedAddress new))
    | some j =>
        some { s.log (.memoryDeviceMappedAddress { new with memoryDeviceHandle := s.handle17 j }) with
          memory17 := setAt s.memory17 j 0 }

/-- The type 19: the highest end of the original ones, or the end of what was counted. -/
def mappedRange (mapped : List MemoryArrayMappedAddress) (s : Patch) : MemoryArrayMappedAddress :=
  let seen := mapped.take (s.gRam.maxMemorySlots * 2)
  let totalEnd : UInt32 := seen.foldl (fun totalEnd original =>
    if totalEnd < original.endingAddress then original.endingAddress else totalEnd) 0
  { handle := s.numberOfRecords
    memoryArrayHandle := s.handle16
    startingAddress := 0
    endingAddress := if totalEnd = 0 then (s.totalSystemMemory <<< 10) - 1 else totalEnd
    partitionWidth := (seen.getLast?.map MemoryArrayMappedAddress.partitionWidth).getD 1 }

/-- `gRAM->MaxMemorySlots`, a `UINT8`. -/
def memorySlots (array : PhysicalMemoryArray) : Nat :=
  if array.numberOfMemoryDevices.toNat % 256 = 0 then maxRamSlots else array.numberOfMemoryDevices.toNat % 256

/-- `gRAM` when the slots and the modules of the original table have been counted. -/
def countedRam (input : Input) (array : PhysicalMemoryArray) : MemStructure :=
  { maxMemorySlots := memorySlots array
    memoryModules := (List.range (memorySlots array)).countP fun index =>
      input.devices[index]?.any fun device => 0 < device.size }

/-- `ScanSPD`, if the user does not disable it. -/
def readModules (input : Input) (gRam : MemStructure) : Option MemStructure :=
  if input.spdScan = true then scanSpd input.decoders input.pciDevices gRam else some gRam

/-- Before anything is logged. -/
def Input.start (input : Input) : Patch := ⟨{}, 0xFFFE, input.handle17, fun _ => 0, 0, input.numberOfRecords, []⟩

/-- With the type 16, whose handle the devices refer to. -/
def Input.withArray (input : Input) (array : PhysicalMemoryArray) (gRam : MemStructure) : Patch :=
  { input.start.log (.physicalMemoryArray { array with handle := input.start.numberOfRecords }) with
    handle16 := input.start.numberOfRecords
    gRam := gRam }

/-- The loops over the devices and the mapped addresses. The original structures of a type are looked up by their index,
so that a loop that stops or returns at the first that is missing goes over the first ones. -/
def patchStructures (input : Input) (s : Patch) : Option Patch := do
  let s ← (List.range s.gRam.maxMemorySlots).foldlM (patchDevice input.cMemDevice input.devices) s
  let range := mappedRange input.mapped s
  (input.deviceMapped.take (s.gRam.maxMemorySlots * 2)).foldlM (patchMapped range.handle)
    (s.log (.memoryArrayMappedAddress range))

/-- `PatchMemoryTables`. -/
def patchMemoryTables (input : Input) : Option Patch :=
  match input.arrays[0]? with
  | none => some input.start
  | some array => do
      let gRam ← readModules input (countedRam input array)
      patchStructures input (input.withArray array gRam)

end BareBoot.MemoryTables
