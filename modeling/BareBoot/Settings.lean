import BareBoot.DataSetting
import BareBoot.Exec
import BareBoot.PlistQuery
import BareBoot.PlistWriter

/-! The settings of `macosx.h` that have a size of their own, and the readers of `Utils.c` that fill them.
A write outside the field or the array that is being filled stops the run. Pool memory is a value: the
bytes that were put into it, or `NULL` where the allocation failed. -/

namespace BareBoot.Config

open Plist Exec

/-! ### The settings -/

/-- The texts of `gSettings`, and `cUUID` of `GetUserSettings`. -/
inductive Field
  | vendorName
  | romVersion
  | releaseDate
  | manufactureName
  | productName
  | versionNr
  | serialNr
  | familyName
  | boardManufactureName
  | boardSerialNumber
  | boardNumber
  | locationInChassis
  | boardVersion
  | chassisManufacturer
  | chassisAssetTag
  | language
  | bootArgs
  | fBName
  | dcfg
  | nVCAP
  | mLB
  | cUUID
  deriving DecidableEq, Repr

/-- `sizeof`; the sixteen characters of `FBName` have two bytes each. -/
def Field.size : Field → Nat
  | .language => 10
  | .bootArgs => 256
  | .fBName => 32
  | .dcfg => 8
  | .nVCAP => 20
  | _ => 64

def maxRamSlots : Nat := 8

/-- `CUSTOM_SMBIOS_TYPE17` -/
structure MemDevice where
  inUse : Bool
  memoryType : Nat
  speed : Nat
  size : Nat
  deviceLocator : Option Bytes
  bankLocator : Option Bytes
  manufacturer : Option Bytes
  serialNumber : Option Bytes
  partNumber : Option Bytes
  deriving DecidableEq, Repr

/-- One slot of the arrays `AnyKernelDataLen`, `AnyKernelData` and `AnyKernelPatch`. -/
structure KernelSlot where
  dataLen : Nat
  data : Option Bytes
  patch : Option Bytes
  deriving DecidableEq, Repr

/-- One slot of the arrays `AnyKext`, `AnyKextInfoPlistPatch`, `AnyKextDataLen`, `AnyKextData` and
`AnyKextPatch`. -/
structure KextSlot where
  name : Option Bytes
  infoPlistPatch : Bool
  dataLen : Nat
  data : Option Bytes
  patch : Option Bytes
  deriving DecidableEq, Repr

/-- The bytes of a field. -/
abbrev FieldBytes (field : Field) := { bytes : Bytes // bytes.length = field.size }

/-- The part of `SETTINGS_DATA` that is filled from user texts, and how many pools were asked for. A slot that
was never filled is `none`. -/
structure SettingsData where
  text : (field : Field) → FieldBytes field
  cMemDevice : Fin maxRamSlots → MemDevice
  rom : Option Bytes × Nat
  customEDID : Option Bytes
  kpKernelPatchesNeeded : Bool
  nrKernel : Nat
  kernel : Fin 100 → Option KernelSlot
  kpKextPatchesNeeded : Bool
  nrKexts : Nat
  kext : Fin 100 → Option KextSlot
  allocs : Nat

/-- Where a run writes that it should not. -/
inductive Fault
  | outside (field : Field) (place : Nat)
  | memSlot (slot : Nat)
  | patchSlot (i : Nat)
  deriving DecidableEq, Repr

abbrev SettingsM := Exec Fault Empty SettingsData

/-! ### Writing a field -/

theorem length_write {field : Field} {old datum : Bytes} {place : Nat} (hold : old.length = field.size)
    (h : place + datum.length ≤ field.size) : (overwrite old place datum).length = field.size := by
  simp only [overwrite, List.length_append, List.length_take, List.length_drop]
  omega

/-- `CopyMem` to a place of a field. -/
def write (field : Field) (place : Nat) (datum : Bytes) : SettingsM Unit :=
  if h : place + datum.length ≤ field.size then
    modify fun s =>
      { s with
        text := Function.update s.text field
          ⟨overwrite (s.text field).val place datum, length_write (s.text field).property h⟩ }
  else stop (.outside field place)

def zeroMem (field : Field) : SettingsM Unit := write field 0 (List.replicate field.size 0)

/-- The C string in a field. -/
def fieldStr (s : SettingsData) (field : Field) : Bytes := cstr (s.text field).val

/-- Nothing is copied where the text and its end do not fit. -/
def asciiStrCpyS (field : Field) (source : Bytes) : SettingsM Unit :=
  if field.size ≤ source.length then pure () else write field 0 (source ++ [0])

def asciiStrCatS (field : Field) (source : Bytes) : SettingsM Unit := do
  let s ← get
  let destLen := (fieldStr s field).length
  if field.size - destLen ≤ source.length then pure () else write field destLen (source ++ [0])

/-- `AsciiStrToUnicodeStrS` with the number of characters the field has. -/
def asciiStrToUnicodeStrS (source : Bytes) (field : Field) : SettingsM Unit :=
  if field.size / 2 ≤ source.length then pure () else write field 0 ((source ++ [0]).flatMap fun c => [c, 0])

/-! ### Reading a dictionary -/

def getDictionary (topDict : Option Node) (dictName : Bytes) : Option Node := plDictFindKind topDict dictName .dict

def getNumProperty (dict : Option Node) (key : Bytes) (dflt : Nat) : Nat :=
  match plDictFindKind dict key .integer with
  | some ⟨.integer intval, _⟩ => intval.toUInt64.toNat
  | _ => dflt

def getBoolProperty (dict : Option Node) (key : Bytes) (dflt : Bool) : Bool :=
  match plDictFindKind dict key .bool with
  | some ⟨.bool intval, _⟩ => intval
  | _ => dflt

/-- The text is copied at the length it has, and ended there. -/
def getAsciiProperty (dict : Option Node) (key : Bytes) (aptr : Field) : SettingsM Unit :=
  match plDictFindKind dict key .string with
  | none => pure ()
  | some dentry => do
      let slen := plNodeGetSize dentry
      write aptr 0 ((plNodeGetBytes dentry).getD [])
      write aptr slen [0]

section Pools

/-! `pool n` says whether the allocation succeeds that is made after `n` others. -/

variable (pool : Nat → Bool)

def allocatePool : SettingsM Bool := do
  let s ← get
  modify fun s => { s with allocs := s.allocs + 1 }
  pure (pool s.allocs)

def allocateCopyPool (bytes : Bytes) : SettingsM (Option Bytes) := do
  if ← allocatePool pool then pure (some bytes) else pure none

def getUnicodeProperty (dict : Option Node) (key : Bytes) (uptr : Field) : SettingsM Bool :=
  match plDictFindKind dict key .string with
  | none => pure false
  | some dentry => do
      match ← allocateCopyPool pool ((plNodeGetBytes dentry).getD []) with
      | none => pure false
      | some tbuf =>
          asciiStrToUnicodeStrS (cstr tbuf) uptr
          pure true

def getStringProperty (dict : Option Node) (key : Bytes) : SettingsM (Option Bytes) :=
  match plDictFindKind dict key .string with
  | none => pure none
  | some dentry => allocateCopyPool pool ((plNodeGetBytes dentry).getD [])

/-- The pool and the length reported for it. Hex text that does not decode leaves a pool of the length 0. -/
def getDataSetting (dict : Option Node) (propName : Bytes) : SettingsM (Option Bytes × Nat) := do
  let prop := plDictFindKind dict propName .any
  match plNodeGetKind prop with
  | .data =>
      let data ← allocateCopyPool pool ((plNodeGetBytes prop).getD [])
      pure (data, plNodeGetSize prop)
  | .string =>
      let len := plNodeGetSize prop / 2
      if ← allocatePool pool then
        let bin := hex2bin (cstr ((plNodeGetBytes prop).getD [])) (i32 len)
        pure (some bin, bin.length)
      else pure (none, 0)
  | _ => pure (none, 0)

end Pools

end BareBoot.Config
