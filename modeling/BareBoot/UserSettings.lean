import BareBoot.Settings

/-! `GetUserSettings` of `Utils.c`: the sections that fill texts, data and arrays of the settings. The sections
`PCI`, `ACPI` and `CPU` set single values and pools of their own only, and so do the lines left out of the
others. -/

namespace BareBoot.Config

open Plist Exec

/-- The texts of one product in the tables of `Utils.c`. -/
structure Product where
  boardID : Bytes
  systemVersion : Bytes
  chassisAsset : Bytes
  families : Bytes
  productName : Bytes
  releaseDate : Bytes
  firmwareVersion : Bytes
  serialNumber : Bytes

/-- What the settings depend on besides the plist: which allocations succeed, the options chosen in the menu,
the product tables, and `GetDefaultModel` for a mobile machine or another one. -/
structure Env where
  pool : Nat → Bool
  addBootArgs : Bytes
  products : List Product
  defaultModel : Bool → Product

def appleInc : Bytes := ascii "Apple Inc."
def appleBoardSN : Bytes := ascii "C02032101R5DC771H"
def appleBoardLocation : Bytes := ascii "Part Component"

/-- `AsciiStrStr` finds something. -/
def occurs (search text : Bytes) : Bool := text.tails.any search.isPrefixOf

section Sections

variable (env : Env)

/-! ### System parameters and graphics -/

/-- The text of a UUID, in the buffer both are read into. -/
def uuidProperty (dict : Option Node) (key : Bytes) : SettingsM Unit := do
  write .cUUID 0 [0]
  getAsciiProperty dict key .cUUID

/-- The options chosen in the menu, behind those of the settings. -/
def addedBootArgs : SettingsM Unit :=
  if env.addBootArgs.length ≠ 0 then asciiStrCatS .bootArgs env.addBootArgs else pure ()

def systemParameters (dict : Option Node) : SettingsM Unit :=
  if dict = none then pure ()
  else do
    getAsciiProperty dict (ascii "prev-lang") .language
    getAsciiProperty dict (ascii "boot-args") .bootArgs
    addedBootArgs env
    uuidProperty dict (ascii "PlatformUUID")
    uuidProperty dict (ascii "SystemID")
    write .mLB 0 [0]
    getAsciiProperty dict (ascii "MLB") .mLB
    let rom ← getDataSetting env.pool dict (ascii "ROM")
    modify fun s => { s with rom }

/-- Data of one length only. -/
def exactSetting (dict : Option Node) (propName : Bytes) (field : Field) : SettingsM Unit := do
  let tmpval ← getDataSetting env.pool dict propName
  match tmpval.1 with
  | none => pure ()
  | some data => if tmpval.2 = field.size then write field 0 (data.take field.size) else pure ()

def graphics (dict : Option Node) : SettingsM Unit :=
  if dict = none then pure ()
  else do
    let _ ← getUnicodeProperty env.pool dict (ascii "FBName") .fBName
    exactSetting env dict (ascii "NVCAP") .nVCAP
    exactSetting env dict (ascii "DisplayCfg") .dcfg
    let customEDID ← getDataSetting env.pool dict (ascii "CustomEDID")
    modify fun s => { s with customEDID := customEDID.1 }

/-! ### SMBIOS -/

/-- The product named in the settings, or the one for the machine. -/
def modelOf (mobile : Bool) (productName : Bytes) : Option Product :=
  if productName.length > 0 then env.products.find? fun product => occurs productName product.productName
  else some (env.defaultModel mobile)

def productDefaults (model : Product) : SettingsM Unit := do
  asciiStrCpyS .boardNumber model.boardID
  asciiStrCpyS .boardVersion model.systemVersion
  asciiStrCpyS .chassisAssetTag model.chassisAsset
  asciiStrCpyS .familyName model.families
  asciiStrCpyS .productName model.productName
  asciiStrCpyS .releaseDate model.releaseDate
  asciiStrCpyS .romVersion model.firmwareVersion
  asciiStrCpyS .serialNr model.serialNumber
  asciiStrCpyS .versionNr model.systemVersion

/-- The texts of the section `SMBIOS` that replace the product's, in their order. -/
def smbiosTexts : List (Bytes × Field) :=
  [(ascii "BiosReleaseDate", .releaseDate), (ascii "BiosVendor", .vendorName), (ascii "BiosVersion", .romVersion),
    (ascii "Board-ID", .boardNumber), (ascii "BoardManufacturer", .boardManufactureName),
    (ascii "BoardSerialNumber", .boardSerialNumber), (ascii "BoardVersion", .boardVersion),
    (ascii "ChassisAssetTag", .chassisAssetTag), (ascii "ChassisManufacturer", .chassisManufacturer),
    (ascii "Family", .familyName), (ascii "LocationInChassis", .locationInChassis),
    (ascii "Manufacturer", .manufactureName), (ascii "SerialNumber", .serialNr), (ascii "Version", .versionNr)]

/-- One entry of `MemoryDevices`. The first write to the slot is the one that can miss the array. -/
def memoryDevice (prop : Option Node) : SettingsM Unit := do
  let slot := getNumProperty prop (ascii "Slot") 0xff % 2 ^ 8
  if h : slot < maxRamSlots then
    let deviceLocator ← getStringProperty env.pool prop (ascii "DeviceLocator")
    let bankLocator ← getStringProperty env.pool prop (ascii "BankLocator")
    let manufacturer ← getStringProperty env.pool prop (ascii "Manufacturer")
    let serialNumber ← getStringProperty env.pool prop (ascii "SerialNumber")
    let partNumber ← getStringProperty env.pool prop (ascii "PartNumber")
    let device : MemDevice :=
      { inUse := true
        memoryType := getNumProperty prop (ascii "MemoryType") 0x02 % 2 ^ 8
        speed := getNumProperty prop (ascii "Speed") 0x00 % 2 ^ 16
        size := getNumProperty prop (ascii "Size") 0xffff % 2 ^ 16
        deviceLocator, bankLocator, manufacturer, serialNumber, partNumber }
    modify fun s => { s with cMemDevice := Function.update s.cMemDevice ⟨slot, h⟩ device }
  else stop (.memSlot slot)

def memoryDevices (dict : Option Node) : SettingsM Unit :=
  match plDictFindKind dict (ascii "MemoryDevices") .array with
  | none => pure ()
  | some array =>
      let nrSlot := plNodeGetSize array % 2 ^ 8
      if nrSlot ≤ maxRamSlots then (List.range nrSlot).forM fun i => memoryDevice env (plNodeGetItem array i) else pure ()

def smbios (dict : Option Node) : SettingsM Unit := do
  asciiStrCpyS .boardManufactureName appleInc
  asciiStrCpyS .chassisManufacturer appleInc
  asciiStrCpyS .manufactureName appleInc
  asciiStrCpyS .vendorName appleInc
  asciiStrCpyS .boardSerialNumber appleBoardSN
  asciiStrCpyS .locationInChassis appleBoardLocation
  let mobile := getBoolProperty dict (ascii "Mobile") false
  getAsciiProperty dict (ascii "ProductName") .productName
  let s ← get
  match modelOf env mobile (fieldStr s .productName) with
  | none => pure ()
  | some model => productDefaults model
  smbiosTexts.forM fun text => getAsciiProperty dict text.1 text.2
  memoryDevices env dict

/-! ### Patches -/

/-- The entry is kept when both lengths agree and are not 0. -/
def acceptedLen (dataLen len : Nat) : Nat := if dataLen ≠ len ∨ len = 0 then 0 else dataLen

def kernelPatch (dict : Option Node) (i : Nat) : SettingsM Unit := do
  if h : i < 100 then
    let data ← getDataSetting env.pool dict (ascii "Find")
    let patch ← getDataSetting env.pool dict (ascii "Replace")
    let dataLen := acceptedLen data.2 patch.2
    modify fun s =>
      { s with
        kernel := Function.update s.kernel ⟨i, h⟩ (some ⟨dataLen, data.1, patch.1⟩)
        kpKernelPatchesNeeded := s.kpKernelPatchesNeeded || dataLen ≠ 0 }
  else stop (.patchSlot i)

def kernelPatches (gConfigPlist : Option Node) : SettingsM Unit := do
  modify fun s => { s with kpKernelPatchesNeeded := false }
  match plDictFindKind gConfigPlist (ascii "KernelPatches") .array with
  | none => pure ()
  | some array => do
      let nrKernel := plNodeGetSize array
      modify fun s => { s with nrKernel }
      if nrKernel ≤ 100 then (List.range nrKernel).forM fun i => kernelPatch env (plNodeGetItem array i) i else pure ()

/-- A text and its length as a C string; 0 where there is none. -/
def stringSetting (dict : Option Node) (key : Bytes) : SettingsM (Option Bytes × Nat) := do
  let data ← getStringProperty env.pool dict key
  pure (data, (cstr (data.getD [])).length)

/-- How a patch is read: text for an `Info.plist`, data for a binary. -/
def kextSetting (infoPlistPatch : Bool) (dict : Option Node) (key : Bytes) : SettingsM (Option Bytes × Nat) :=
  if infoPlistPatch then stringSetting env dict key else getDataSetting env.pool dict key

def kextPatch (dict : Option Node) (i : Nat) : SettingsM Unit := do
  if h : i < 100 then
    let name ← getStringProperty env.pool dict (ascii "Name")
    let infoPlistPatch := getBoolProperty dict (ascii "InfoPlistPatch") false
    let data ← kextSetting env infoPlistPatch dict (ascii "Find")
    let patch ← kextSetting env infoPlistPatch dict (ascii "Replace")
    let dataLen := acceptedLen data.2 patch.2
    modify fun s =>
      { s with
        kext := Function.update s.kext ⟨i, h⟩ (some ⟨name, infoPlistPatch, dataLen, data.1, patch.1⟩)
        kpKextPatchesNeeded := s.kpKextPatchesNeeded || dataLen ≠ 0 }
  else stop (.patchSlot i)

def kextPatches (gConfigPlist : Option Node) : SettingsM Unit := do
  modify fun s => { s with kpKextPatchesNeeded := false }
  match plDictFindKind gConfigPlist (ascii "KextPatches") .array with
  | none => pure ()
  | some array => do
      let nrKexts := plNodeGetSize array
      modify fun s => { s with nrKexts }
      if nrKexts ≤ 100 then (List.range nrKexts).forM fun i => kextPatch env (plNodeGetItem array i) i else pure ()

def kernelAndKextPatches (gConfigPlist : Option Node) : SettingsM Unit := do
  kernelPatches env gConfigPlist
  kextPatches env gConfigPlist

def getUserSettings (gConfigPlist : Option Node) : SettingsM Unit :=
  if gConfigPlist = none then pure ()
  else do
    zeroMem .language
    zeroMem .bootArgs
    zeroMem .serialNr
    modify fun s => { s with customEDID := none }
    systemParameters env (getDictionary gConfigPlist (ascii "SystemParameters"))
    graphics env (getDictionary gConfigPlist (ascii "Graphics"))
    smbios env (getDictionary gConfigPlist (ascii "SMBIOS"))
    kernelAndKextPatches env gConfigPlist

end Sections

/-! ### Texts that fit -/

/-- The text of the key, if there is one, leaves room for its end. -/
def TextFits (dict : Option Node) (text : Bytes × Field) : Prop :=
  ∀ dentry, plDictFindKind dict text.1 .string = some dentry → plNodeGetSize (some dentry) < text.2.size

/-- The texts of the section `SystemParameters`. -/
def systemTexts : List (Bytes × Field) :=
  [(ascii "prev-lang", .language), (ascii "boot-args", .bootArgs), (ascii "PlatformUUID", .cUUID),
    (ascii "SystemID", .cUUID), (ascii "MLB", .mLB)]

/-- Every entry of `MemoryDevices` that is read names a slot of the array. -/
def SlotsFit (dict : Option Node) : Prop :=
  ∀ array, plDictFindKind dict (ascii "MemoryDevices") .array = some array →
    plNodeGetSize (some array) % 2 ^ 8 ≤ maxRamSlots → ∀ i < plNodeGetSize (some array) % 2 ^ 8,
      getNumProperty (plNodeGetItem (some array) i) (ascii "Slot") 0xff % 2 ^ 8 < maxRamSlots

/-- Every text is shorter than its field, and every slot number lies in the array. -/
structure Fits (gConfigPlist : Option Node) : Prop where
  system : ∀ text ∈ systemTexts, TextFits (getDictionary gConfigPlist (ascii "SystemParameters")) text
  product : TextFits (getDictionary gConfigPlist (ascii "SMBIOS")) (ascii "ProductName", .productName)
  smbios : ∀ text ∈ smbiosTexts, TextFits (getDictionary gConfigPlist (ascii "SMBIOS")) text
  slots : SlotsFit (getDictionary gConfigPlist (ascii "SMBIOS"))

section Returns

variable {env : Env} {dict : Option Node} {key : Bytes} {field : Field}

theorem returns_write (place : Nat) (datum : Bytes) :
    Returns (write field place datum) (place + datum.length ≤ field.size) := by
  unfold write
  by_cases h : place + datum.length ≤ field.size
  · rw [dif_pos h]
    exact (Returns.modify _).iff (iff_of_true trivial h)
  · rw [dif_neg h]
    exact (Returns.stop _).iff (iff_of_false not_false h)

/-- A write that the code has measured. -/
theorem returns_write_of_le {place : Nat} {datum : Bytes} (h : place + datum.length ≤ field.size) :
    Returns (write field place datum) True :=
  (returns_write place datum).iff (iff_true_intro h)

theorem returns_zeroMem : Returns (zeroMem field) True :=
  returns_write_of_le (by rw [List.length_replicate, Nat.zero_add])

theorem returns_cpyS (source : Bytes) : Returns (asciiStrCpyS field source) True := by
  unfold asciiStrCpyS
  by_cases h : field.size ≤ source.length
  · rw [if_pos h]
    exact Returns.pure ()
  · rw [if_neg h]
    apply returns_write_of_le
    rw [List.length_append, List.length_singleton]
    omega

theorem returns_catS (source : Bytes) : Returns (asciiStrCatS field source) True := by
  apply Returns.get_bind
  intro s
  by_cases h : field.size - (fieldStr s field).length ≤ source.length
  · rw [if_pos h]
    exact Returns.pure ()
  · rw [if_neg h]
    apply returns_write_of_le
    rw [List.length_append, List.length_singleton]
    omega

theorem length_wide (source : Bytes) : (source.flatMap fun c => [c, 0]).length = 2 * source.length := by
  induction source with
  | nil => rfl
  | cons c source ih =>
      rw [List.flatMap_cons, List.length_append, ih]
      show 2 + 2 * source.length = 2 * (source.length + 1)
      omega

theorem returns_toUnicodeStrS (source : Bytes) : Returns (asciiStrToUnicodeStrS source field) True := by
  unfold asciiStrToUnicodeStrS
  by_cases h : field.size / 2 ≤ source.length
  · rw [if_pos h]
    exact Returns.pure ()
  · rw [if_neg h]
    apply returns_write_of_le
    rw [length_wide, List.length_append, List.length_singleton]
    omega

/-- The end of the text is what decides. -/
theorem returns_asciiProperty : Returns (getAsciiProperty dict key field) (TextFits dict (key, field)) := by
  unfold getAsciiProperty
  cases hfind : plDictFindKind dict key .string with
  | none =>
      refine (Returns.pure ()).iff (iff_of_true trivial ?_)
      intro dentry hdentry
      rw [hfind] at hdentry
      cases hdentry
  | some dentry =>
      have hbytes : ((plNodeGetBytes (some dentry)).getD []).length = plNodeGetSize (some dentry) := by
        obtain ⟨bytes, hget⟩ := plNodeGetBytes_of_kind (Or.inr (plDictFindKind_kind hfind (by decide)))
        rw [hget, plNodeGetSize_of_bytes hget]
        rfl
      refine ((returns_write 0 _).bind fun _ => returns_write _ [0]).iff ?_
      rw [hbytes, Nat.zero_add, List.length_singleton]
      constructor
      · rintro ⟨-, hend⟩ dentry' hdentry'
        cases hfind.symm.trans hdentry'
        exact hend
      · intro hfits
        have hend := hfits dentry hfind
        exact ⟨Nat.le_of_lt hend, hend⟩

theorem returns_allocatePool (pool : Nat → Bool) : Returns (allocatePool pool) True :=
  Returns.get_bind fun _ => (Returns.modify _).then fun _ => Returns.pure _

theorem returns_allocateCopyPool (pool : Nat → Bool) (bytes : Bytes) : Returns (allocateCopyPool pool bytes) True := by
  apply (returns_allocatePool pool).then
  intro ok
  cases ok
  · exact Returns.pure _
  · exact Returns.pure _

theorem returns_unicodeProperty (pool : Nat → Bool) : Returns (getUnicodeProperty pool dict key field) True := by
  unfold getUnicodeProperty
  cases plDictFindKind dict key .string with
  | none => exact Returns.pure _
  | some dentry =>
      apply (returns_allocateCopyPool pool _).then
      intro tbuf
      cases tbuf with
      | none => exact Returns.pure _
      | some tbuf => exact (returns_toUnicodeStrS _).then fun _ => Returns.pure _

theorem returns_stringProperty (pool : Nat → Bool) : Returns (getStringProperty pool dict key) True := by
  unfold getStringProperty
  cases plDictFindKind dict key .string with
  | none => exact Returns.pure _
  | some dentry => exact returns_allocateCopyPool pool _

theorem returns_dataSetting (pool : Nat → Bool) : Returns (getDataSetting pool dict key) True := by
  unfold getDataSetting
  dsimp only
  split
  · exact (returns_allocateCopyPool pool _).then fun _ => Returns.pure _
  · apply (returns_allocatePool pool).then
    intro ok
    cases ok
    · exact Returns.pure _
    · exact Returns.pure _
  · exact Returns.pure _

/-! ### The sections -/

theorem returns_uuidProperty : Returns (uuidProperty dict key) (TextFits dict (key, .cUUID)) :=
  (returns_write_of_le (by decide)).then fun _ => returns_asciiProperty

theorem returns_addedBootArgs : Returns (addedBootArgs env) True := by
  unfold addedBootArgs
  by_cases h : env.addBootArgs.length ≠ 0
  · rw [if_pos h]
    exact returns_catS _
  · rw [if_neg h]
    exact Returns.pure _

theorem returns_systemParameters :
    Returns (systemParameters env dict) (∀ text ∈ systemTexts, TextFits dict text) := by
  unfold systemParameters
  by_cases hdict : dict = none
  · rw [if_pos hdict]
    refine (Returns.pure ()).iff (iff_of_true trivial ?_)
    intro text _ dentry hdentry
    rw [hdict] at hdentry
    cases hdentry
  · rw [if_neg hdict]
    refine Returns.iff (returns_asciiProperty.bind fun _ => returns_asciiProperty.bind fun _ =>
      returns_addedBootArgs.then fun _ => returns_uuidProperty.bind fun _ => returns_uuidProperty.bind fun _ =>
        (returns_write_of_le (by decide)).then fun _ => returns_asciiProperty.bind fun _ =>
          (returns_dataSetting env.pool).then fun _ => Returns.modify _) ?_
    simp only [systemTexts, List.forall_mem_cons, List.not_mem_nil, false_implies, implies_true, and_true]

theorem returns_exactSetting : Returns (exactSetting env dict key field) True := by
  apply (returns_dataSetting env.pool).then
  intro tmpval
  cases tmpval.1 with
  | none => exact Returns.pure _
  | some data =>
      dsimp only
      by_cases hlen : tmpval.2 = field.size
      · rw [if_pos hlen]
        apply returns_write_of_le
        rw [Nat.zero_add]
        exact List.length_take_le _ _
      · rw [if_neg hlen]
        exact Returns.pure _

theorem returns_graphics : Returns (graphics env dict) True := by
  unfold graphics
  by_cases hdict : dict = none
  · rw [if_pos hdict]
    exact Returns.pure _
  · rw [if_neg hdict]
    exact (returns_unicodeProperty env.pool).then fun _ => returns_exactSetting.then fun _ =>
      returns_exactSetting.then fun _ => (returns_dataSetting env.pool).then fun _ => Returns.modify _

theorem returns_productDefaults (model : Product) : Returns (productDefaults model) True :=
  (returns_cpyS _).then fun _ => (returns_cpyS _).then fun _ => (returns_cpyS _).then fun _ =>
    (returns_cpyS _).then fun _ => (returns_cpyS _).then fun _ => (returns_cpyS _).then fun _ =>
      (returns_cpyS _).then fun _ => (returns_cpyS _).then fun _ => returns_cpyS _

theorem returns_memoryDevice {prop : Option Node} :
    Returns (memoryDevice env prop) (getNumProperty prop (ascii "Slot") 0xff % 2 ^ 8 < maxRamSlots) := by
  unfold memoryDevice
  dsimp only
  by_cases hslot : getNumProperty prop (ascii "Slot") 0xff % 2 ^ 8 < maxRamSlots
  · rw [dif_pos hslot]
    refine Returns.iff ?_ (iff_of_true trivial hslot)
    exact (returns_stringProperty env.pool).then fun _ => (returns_stringProperty env.pool).then fun _ =>
      (returns_stringProperty env.pool).then fun _ => (returns_stringProperty env.pool).then fun _ =>
        (returns_stringProperty env.pool).then fun _ => Returns.modify _
  · rw [dif_neg hslot]
    exact (Returns.stop _).iff (iff_of_false not_false hslot)

theorem returns_memoryDevices : Returns (memoryDevices env dict) (SlotsFit dict) := by
  unfold memoryDevices
  cases hfind : plDictFindKind dict (ascii "MemoryDevices") .array with
  | none =>
      refine (Returns.pure ()).iff (iff_of_true trivial ?_)
      intro array harray
      rw [hfind] at harray
      cases harray
  | some array =>
      have hone : SlotsFit dict ↔ (plNodeGetSize (some array) % 2 ^ 8 ≤ maxRamSlots →
          ∀ i < plNodeGetSize (some array) % 2 ^ 8,
            getNumProperty (plNodeGetItem (some array) i) (ascii "Slot") 0xff % 2 ^ 8 < maxRamSlots) := by
        constructor
        · exact fun h => h array hfind
        · intro h array' harray'
          cases hfind.symm.trans harray'
          exact h
      refine Returns.iff ?_ hone.symm
      dsimp only
      by_cases hcount : plNodeGetSize (some array) % 2 ^ 8 ≤ maxRamSlots
      · rw [if_pos hcount]
        refine (Returns.forM fun i _ => returns_memoryDevice).iff ?_
        rw [imp_iff_right hcount]
        exact forall_congr' fun i => imp_congr List.mem_range Iff.rfl
      · rw [if_neg hcount]
        exact (Returns.pure ()).iff (iff_of_true trivial fun h => absurd h hcount)

theorem returns_smbios : Returns (smbios env dict) (TextFits dict (ascii "ProductName", .productName) ∧
    (∀ text ∈ smbiosTexts, TextFits dict text) ∧ SlotsFit dict) := by
  have htexts : Returns (smbiosTexts.forM fun text => getAsciiProperty dict text.1 text.2)
      (∀ text ∈ smbiosTexts, TextFits dict text) := Returns.forM fun text _ => returns_asciiProperty
  refine (returns_cpyS _).then fun _ => (returns_cpyS _).then fun _ => (returns_cpyS _).then fun _ =>
    (returns_cpyS _).then fun _ => (returns_cpyS _).then fun _ => (returns_cpyS _).then fun _ => ?_
  refine returns_asciiProperty.bind fun _ => Returns.get_bind fun s => ?_
  cases modelOf env (getBoolProperty dict (ascii "Mobile") false) (fieldStr s .productName) with
  | none => exact (Returns.pure ()).then fun _ => htexts.bind fun _ => returns_memoryDevices
  | some model => exact (returns_productDefaults model).then fun _ => htexts.bind fun _ => returns_memoryDevices

/-! ### The patches -/

theorem returns_kernelPatch {i : Nat} (hi : i < 100) : Returns (kernelPatch env dict i) True := by
  unfold kernelPatch
  rw [dif_pos hi]
  exact (returns_dataSetting env.pool).then fun _ => (returns_dataSetting env.pool).then fun _ => Returns.modify _

theorem returns_kextSetting (infoPlistPatch : Bool) : Returns (kextSetting env infoPlistPatch dict key) True := by
  cases infoPlistPatch
  · exact returns_dataSetting env.pool
  · exact (returns_stringProperty env.pool).then fun _ => Returns.pure _

theorem returns_kextPatch {i : Nat} (hi : i < 100) : Returns (kextPatch env dict i) True := by
  unfold kextPatch
  rw [dif_pos hi]
  exact (returns_stringProperty env.pool).then fun _ => (returns_kextSetting _).then fun _ =>
    (returns_kextSetting _).then fun _ => Returns.modify _

/-- A loop over the entries of an array that is only entered for up to a hundred. -/
theorem returns_patches {f : Nat → SettingsM Unit} (h : ∀ i < 100, Returns (f i) True) (count : Nat) :
    Returns (if count ≤ 100 then (List.range count).forM f else pure ()) True := by
  by_cases hcount : count ≤ 100
  · rw [if_pos hcount]
    refine (Returns.forM fun i hi => h i ?_).iff (iff_true_intro fun _ _ => trivial)
    exact Nat.lt_of_lt_of_le (List.mem_range.1 hi) hcount
  · rw [if_neg hcount]
    exact Returns.pure ()

theorem returns_kernelPatches : Returns (kernelPatches env dict) True := by
  refine (Returns.modify _).then fun _ => ?_
  cases plDictFindKind dict (ascii "KernelPatches") .array with
  | none => exact Returns.pure ()
  | some array => exact (Returns.modify _).then fun _ => returns_patches (fun _ hi => returns_kernelPatch hi) _

theorem returns_kextPatches : Returns (kextPatches env dict) True := by
  refine (Returns.modify _).then fun _ => ?_
  cases plDictFindKind dict (ascii "KextPatches") .array with
  | none => exact Returns.pure ()
  | some array => exact (Returns.modify _).then fun _ => returns_patches (fun _ hi => returns_kextPatch hi) _

theorem returns_getUserSettings : Returns (getUserSettings env dict) (Fits dict) := by
  unfold getUserSettings
  by_cases hdict : dict = none
  · rw [if_pos hdict]
    refine (Returns.pure ()).iff (iff_of_true trivial ?_)
    subst hdict
    exact ⟨fun _ _ _ h => (nomatch h), fun _ h => (nomatch h), fun _ _ _ h => (nomatch h), fun _ h => (nomatch h)⟩
  · rw [if_neg hdict]
    have hpatches : Returns (kernelAndKextPatches env dict) True :=
      returns_kernelPatches.then fun _ => returns_kextPatches
    refine Returns.iff (returns_zeroMem.then fun _ => returns_zeroMem.then fun _ => returns_zeroMem.then fun _ =>
      (Returns.modify _).then fun _ => returns_systemParameters.bind fun _ => returns_graphics.then fun _ =>
        returns_smbios.bind fun _ => hpatches) ?_
    constructor
    · rintro ⟨hsystem, ⟨hproduct, hsmbios, hslots⟩, -⟩
      exact ⟨hsystem, hproduct, hsmbios, hslots⟩
    · rintro ⟨hsystem, hproduct, hsmbios, hslots⟩
      exact ⟨hsystem, ⟨hproduct, hsmbios, hslots⟩, trivial⟩

end Returns

/-- No write misses what it fills exactly if every text and every slot number fits. -/
theorem getUserSettings_inside (env : Env) (gConfigPlist : Option Node) (s : SettingsData) :
    (∀ fault, (getUserSettings env gConfigPlist s).result ≠ .error fault) ↔ Fits gConfigPlist := by
  have hreturns := @returns_getUserSettings env gConfigPlist s
  rw [← hreturns]
  cases (getUserSettings env gConfigPlist s).result with
  | error fault => exact iff_of_false (fun h => h fault rfl) fun ⟨_, h⟩ => nomatch h
  | ok u => exact iff_of_true (fun _ h => nomatch h) ⟨u, rfl⟩

/-- A language of ten characters. -/
def longLanguage : Node :=
  ⟨.dict, .cons (.key (ascii "SystemParameters"))
    (.cons .dict (.cons (.key (ascii "prev-lang")) (.cons (.string (ascii "zh-Hans:52")) .nil .nil) .nil) .nil) .nil⟩

def plainEnv : Env := ⟨fun _ => true, [], [], fun _ => ⟨[], [], [], [], [], [], [], []⟩⟩

def zeroSettings : SettingsData where
  text field := ⟨List.replicate field.size 0, List.length_replicate⟩
  cMemDevice _ := ⟨false, 0, 0, 0, none, none, none, none, none⟩
  rom := (none, 0)
  customEDID := none
  kpKernelPatchesNeeded := false
  nrKernel := 0
  kernel _ := none
  kpKextPatchesNeeded := false
  nrKexts := 0
  kext _ := none
  allocs := 0

/-- Its end is written behind the field. -/
theorem longLanguage_outside : ¬∀ (env : Env) (gConfigPlist : Option Node) (s : SettingsData) (fault : Fault),
    (getUserSettings env gConfigPlist s).result ≠ .error fault := by
  intro h
  have hreturns := @returns_getUserSettings plainEnv (some longLanguage) zeroSettings
  have hfits : Fits (some longLanguage) := by
    refine hreturns.1 ?_
    have hnever := h plainEnv (some longLanguage) zeroSettings
    cases hrun : (getUserSettings plainEnv (some longLanguage) zeroSettings).result with
    | error fault => exact absurd hrun (hnever fault)
    | ok u => exact ⟨u, rfl⟩
  have htext := hfits.system (ascii "prev-lang", .language) List.mem_cons_self ⟨.string (ascii "zh-Hans:52"), .nil⟩ (by decide)
  exact absurd htext (by decide)

end BareBoot.Config
