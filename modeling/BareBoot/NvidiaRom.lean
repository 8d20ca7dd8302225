import BareBoot.Block
import BareBoot.KextSearch

/-! `patch_nvidia_rom` of `device_inject.c`: the outputs that the DCB of a video BIOS lists, their two channels, and the
heads that are written for them. -/

namespace BareBoot.Nvidia

open Kext
open Plist (Bytes ascii)

/-! ### The DCB -/

structure DcbEntry where
  type : UInt8
  index : Nat
  heads : Nat
  deriving DecidableEq, Repr

def maxNumDcbEntries : Nat := 16
def typeGrouped : UInt8 := 0xff

/-- The table of outputs, its header read. -/
structure Dcb where
  dcbtable : Nat
  headerlength : Nat
  numentries : Nat
  recordlength : Nat
  deriving DecidableEq, Repr

section Dcb

variable (memory : Memory)

/-- The DCB of an image at `rom`, `none` where the routine fails. -/
def findDcb (rom : Option Nat) : Option Dcb :=
  match rom with
  | none => none
  | some rom =>
      if memory rom ≠ 0x55 ∧ memory (rom + 1) ≠ 0xaa then none
      else
        let dcbptr := wordAt memory 2 (rom + 0x36)
        if dcbptr = 0 then none
        else
          let dcbtable := rom + dcbptr
          let version := (memory dcbtable).toNat
          if 0x20 ≤ version then
            if 0x30 ≤ version then
              if wordAt memory 4 (dcbtable + 6) = 0x4edcbdcb then
                some ⟨dcbtable, (memory (dcbtable + 1)).toNat, (memory (dcbtable + 2)).toNat, (memory (dcbtable + 3)).toNat⟩
              else none
            else if wordAt memory 4 (dcbtable + 4) = 0x4edcbdcb then some ⟨dcbtable, 8, 0, 0⟩
            else none
          else if 0x14 ≤ version then
            if holds memory (dcbtable - 7) (ascii "DEV_REC") then some ⟨dcbtable, 0, 0, 10⟩ else none
          else none

def Dcb.record (dcb : Dcb) (i : Nat) : Nat := dcb.dcbtable + (dcb.headerlength + dcb.recordlength * i)

/-- Ends of records, empty records and records of type 6 are skipped. -/
def addOutput (dcb : Dcb) (entries : List DcbEntry) (i : Nat) : List DcbEntry :=
  let connection := wordAt memory 4 (dcb.record i)
  if connection % 16 = 15 then entries
  else if connection = 0 then entries
  else if connection % 16 = 6 then entries
  else entries ++ [⟨UInt8.ofNat (connection % 16), entries.length, dcb.record i + 1⟩]

def listOutputs (dcb : Dcb) : List DcbEntry :=
  (List.range (min dcb.numentries maxNumDcbEntries)).foldl (addOutput memory dcb) []

end Dcb

/-! ### Channels -/

inductive Channel
  | channel1
  | channel2
  deriving DecidableEq, Repr

/-- `channel |= (0x1 << index)` in a `UINT8`. -/
def addBit (channel : UInt8) (index : Nat) : UInt8 := UInt8.ofNat (channel.toNat ||| 1 <<< index)

/-- `channel & (1 << i)`. -/
def hasBit (channel : UInt8) (i : Nat) : Bool := channel.toNat &&& (1 <<< i) ≠ 0

structure Groups where
  entries : List DcbEntry
  channel1 : UInt8
  channel2 : UInt8
  deriving DecidableEq, Repr

namespace Groups

def typeAt (s : Groups) (i : Nat) : Option UInt8 := (s.entries[i]?).map DcbEntry.type

def group (s : Groups) (channel : Channel) (i : Nat) : Groups :=
  match s.entries[i]? with
  | none => s
  | some entry =>
      let entries := s.entries.set i { entry with type := typeGrouped }
      match channel with
      | .channel1 => ⟨entries, addBit s.channel1 entry.index, s.channel2⟩
      | .channel2 => ⟨entries, s.channel1, addBit s.channel2 entry.index⟩

def groupLvds (s : Groups) (i : Nat) : Groups := if s.typeAt i = some 3 then s.group .channel1 i else s

/-- What is left goes to the second channel. -/
def groupRest (s : Groups) (i : Nat) : Groups := if s.typeAt i = some typeGrouped then s else s.group .channel2 i

/-- The first TMDS output that is not grouped, with an analog output before it and a TV output behind it. -/
def groupTmds (channel : Channel) : Nat → Nat → Groups → Groups
  | 0, _, s => s
  | left + 1, i, s =>
      if s.typeAt i = some typeGrouped then groupTmds channel left (i + 1) s
      else if i ≠ 0 ∧ s.typeAt i = some 2 then
        let s := s.group channel i
        let s := if s.typeAt (i - 1) = some 0 then s.group channel (i - 1) else s
        if s.typeAt (i + 1) = some 1 then s.group channel (i + 1) else s
      else groupTmds channel left (i + 1) s

end Groups

def hasLvds (entries : List DcbEntry) : Bool := entries.any fun entry => entry.type = 3

def groupOutputs (entries : List DcbEntry) : Groups :=
  let numOutputs := entries.length
  let s := (List.range numOutputs).foldl Groups.groupLvds ⟨entries, 0, 0⟩
  let s :=
    if hasLvds entries then (List.range numOutputs).foldl Groups.groupRest s
    else Groups.groupTmds .channel2 numOutputs 0 (Groups.groupTmds .channel1 numOutputs 0 s)
  (List.range numOutputs).foldl Groups.groupRest s

/-! ### Heads -/

def patchHeads (channel1 channel2 : UInt8) : Nat → List DcbEntry → Memory → Memory
  | _, [], memory => memory
  | i, entry :: entries, memory =>
      patchHeads channel1 channel2 (i + 1) entries
        (if hasBit channel1 i then store memory entry.heads [1]
        else if hasBit channel2 i then store memory entry.heads [2]
        else memory)

inductive PatchRom
  | success
  | successHasLvds
  deriving DecidableEq, Repr

/-- The channels are also what `default_NVCAP` gets. -/
structure Patched where
  result : PatchRom
  channel1 : UInt8
  channel2 : UInt8
  memory : Memory

def patchOutputs (memory : Memory) (entries : List DcbEntry) : Patched :=
  let s := groupOutputs entries
  let channel1 := if s.channel2 < s.channel1 then s.channel2 else s.channel1
  let channel2 := if s.channel2 < s.channel1 then s.channel1 else s.channel2
  ⟨if hasLvds entries then .successHasLvds else .success, channel1, channel2,
    patchHeads channel1 channel2 0 s.entries memory⟩

/-- `none` is `PATCH_ROM_FAILED`. -/
def patchNvidiaRom (memory : Memory) (rom : Option Nat) : Option Patched :=
  (findDcb memory rom).map fun dcb => patchOutputs memory (listOutputs memory dcb)

end BareBoot.Nvidia
