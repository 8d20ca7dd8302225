import BareBoot.DataSetting
import BareBoot.KextSearch

/-! The device properties, `device_inject.c`: a string of devices whose lengths are kept up to date with every
call, and its text in hexadecimal digits. A device is its index in the string. -/

namespace BareBoot.DevProp

open Kext
open Plist (Bytes cstr ascii)

/-! ### Device paths -/

/-- A node of a device path: the header, the bytes behind it and, in an ACPI node, the UID. -/
structure PathNode where
  type : UInt8
  subType : UInt8
  length : UInt16
  function : UInt8
  device : UInt8
  uid : UInt32
  deriving DecidableEq, Repr

structure PciDevPath where
  type : UInt8
  subType : UInt8
  length : UInt16
  function : UInt8
  device : UInt8
  deriving DecidableEq, Repr

def isAcpi (node : PathNode) : Bool := node.type = 2 ∧ node.subType = 1
def isPci (node : PathNode) : Bool := node.type = 1 ∧ node.subType = 1

def copyPci (node : PathNode) : PciDevPath := ⟨node.type, node.subType, node.length, node.function, node.device⟩

/-! ### Registering -/

/-- `length` is a `UINT32`, `numEntries` a `UINT16`; a device without values has no data. -/
structure DevPropDevice where
  length : Nat
  numEntries : Nat
  uid : UInt32
  pciDevPath : List PciDevPath
  data : Option Bytes
  deriving Repr

structure DevPropString where
  length : Nat
  numEntries : Nat
  entries : List DevPropDevice
  deriving Repr

def maxPciDevPaths : Nat := 4

def devpropCreateString : DevPropString := ⟨12, 0, []⟩

/-- The bytes of a device without its values. -/
def fixedLength (numPciDevPaths : Nat) : Nat := 24 + 6 * numPciDevPaths

/-- The device path of the handle; the end node is not part of the list. -/
def devpropAddDevicePci (pciRootUID : UInt16) (path : Option (List PathNode)) (s : DevPropString) : DevPropString :=
  match path with
  | some (first :: rest) =>
      if isAcpi first then
        let uid := if pciRootUID = 0xFFFF then first.uid else pciRootUID.toUInt32
        let pciDevPath := ((rest.takeWhile isPci).take maxPciDevPaths).map copyPci
        if pciDevPath = [] then s
        else
          let device := ⟨fixedLength pciDevPath.length, 0, uid, pciDevPath, none⟩
          ⟨(s.length + device.length) % 2 ^ 32, (s.numEntries + 1) % 2 ^ 16, s.entries ++ [device]⟩
      else s
  | _ => s

/-- The allocated bytes of a value: its name widened, then its data. -/
def valueBytes (length : Nat) (nm vl : Bytes) : Bytes :=
  let l := nm.length
  let header := [UInt8.ofNat (l * 2 + 6), UInt8.ofNat ((l * 2 + 6) / 256), 0, 0]
  let name := (nm.map fun c => [c, 0]).flatten ++ [0, 0]
  (header ++ name ++ wordBytes 4 (vl.length + 4) ++ vl).take length

/-- The data so far at the start of the new, zeroed allocation. -/
def oldData (offset : Nat) (data : Option Bytes) : Bytes :=
  match data with
  | some data => if 1 < offset then data.take offset else List.replicate offset 0
  | none => List.replicate offset 0

/-- A `NULL` device is an index out of range; `len` is the length of the value. -/
def devpropAddValue (device : Nat) (nm vl : Option Bytes) (s : DevPropString) : DevPropString :=
  match s.entries[device]?, nm, vl with
  | some entry, some nm, some vl =>
      if vl.length = 0 then s
      else
        let length := ((cstr nm).length * 2 + vl.length + 2 * 4 + 2) % 2 ^ 32
        let offset := u32 ((entry.length : Int) - fixedLength entry.pciDevPath.length)
        let newdata := oldData offset entry.data ++ valueBytes length (cstr nm) vl
        let entry := { entry with
          length := (entry.length + length) % 2 ^ 32, numEntries := (entry.numEntries + 1) % 2 ^ 16, data := some newdata }
        { s with length := (s.length + length) % 2 ^ 32, entries := s.entries.set device entry }
  | _, _, _ => s

inductive Call
  | addDevicePci (path : Option (List PathNode))
  | addValue (device : Nat) (nm vl : Option Bytes)

def Call.run (pciRootUID : UInt16) (s : DevPropString) : Call → DevPropString
  | .addDevicePci path => devpropAddDevicePci pciRootUID path s
  | .addValue device nm vl => devpropAddValue device nm vl s

def runCalls (pciRootUID : UInt16) (calls : List Call) : DevPropString :=
  calls.foldl (Call.run pciRootUID) devpropCreateString

/-! ### The text -/

/-- The buffer and how far it is written. -/
structure Printer where
  memory : Memory
  buffer : Nat

/-- `AsciiSPrint` of a text, and the fixed step behind it. -/
def asciiSPrint (len : Nat) (text : Bytes) (step : Nat) (p : Printer) : Printer :=
  ⟨store p.memory p.buffer (text.take (len - 1) ++ [0]), p.buffer + step⟩

section Text

variable (upper : Bool) (len : Nat)

def printPci (p : Printer) (path : PciDevPath) : Printer :=
  asciiSPrint len (printHex upper 2 path.type.toNat ++ printHex upper 2 path.subType.toNat ++
    printHex upper 4 (swapBytes 2 path.length.toNat) ++ printHex upper 2 path.function.toNat ++
    printHex upper 2 path.device.toNat) 12 p

def printByte (p : Printer) (c : UInt8) : Printer := asciiSPrint len (printHex upper 2 c.toNat) 2 p

def printDevice (p : Printer) (entry : DevPropDevice) : Printer :=
  let p := asciiSPrint len (printHex upper 8 (swapBytes 4 entry.length) ++ printHex upper 4 (swapBytes 2 entry.numEntries) ++
    printHex upper 4 0) 16 p
  let p := asciiSPrint len (printHex upper 2 2 ++ printHex upper 2 1 ++ printHex upper 4 (swapBytes 2 12) ++
    printHex upper 8 0xd041030a ++ printHex upper 8 (swapBytes 4 entry.uid.toNat)) 24 p
  let p := entry.pciDevPath.foldl (printPci upper len) p
  let p := asciiSPrint len (printHex upper 2 0x7f ++ printHex upper 2 0xff ++ printHex upper 4 (swapBytes 2 4)) 8 p
  let count := (i32 (u32 ((entry.length : Int) - fixedLength entry.pciDevPath.length))).toNat
  ((entry.data.getD []).take count).foldl (printByte upper len) p

end Text

/-- The text is written from `buffer` on. -/
def devpropGenerateString (upper : Bool) (memory : Memory) (buffer : Nat) (pstring : DevPropString) : Printer :=
  let len := pstring.length * 2 % 2 ^ 32
  let p := asciiSPrint len (printHex upper 8 (swapBytes 4 pstring.length) ++ printHex upper 8 0x01000000 ++
    printHex upper 4 (swapBytes 2 pstring.numEntries) ++ printHex upper 4 0) 24 ⟨memory, buffer⟩
  (pstring.entries.take pstring.numEntries).foldl (printDevice upper len) p

/-- What `GetDeviceProps` hands out for the text. -/
def deviceProps (text : Bytes) : Bytes :=
  if 3 < text.length then hex2bin text (text.length / 2 : Nat) else []

end BareBoot.DevProp
