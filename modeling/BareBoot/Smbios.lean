import BareBoot.KextSearch

/-! The structures of an SMBIOS table in `smbios.c`, one behind the other, and their strings: they stand behind the
formatted area, each with its terminator, and a field of the formatted area holds the number of one. Addresses do not
wrap. -/

namespace BareBoot.Smbios

open Plist Kext

def stringMaxLength : Nat := 64

/-- Where the two zeros stand that end the structure. -/
def doubleZero (memory : Memory) : Nat → Nat → Option Nat
  | 0, _ => none
  | rounds + 1, aChar =>
      if memory aChar ≠ 0 ∨ memory (aChar + 1) ≠ 0 then doubleZero memory rounds (aChar + 1) else some aChar

/-- Behind the formatted area, whose length stands in the header. -/
def firstString (memory : Memory) (raw : Nat) : Nat := raw + (memory (raw + 1)).toNat

/-- `SmbiosTableLength`, a `UINT16`. -/
def smbiosTableLength (memory : Memory) (raw : Nat) : Option Nat :=
  (doubleZero memory (2 ^ 64) (firstString memory raw)).map fun aChar => (aChar - raw + 2) % 2 ^ 16

def typeEndOfTable : UInt8 := 127

/-- The loop of `GetSmbiosTableFromType`, over the structures from `raw` on. Zero stands for `NULL`. -/
def tableFromTypeFrom (memory : Memory) (lType : UInt8) (lIndex : Nat) : Nat → Nat → Nat → Option Nat
  | 0, _, _ => none
  | rounds + 1, smbiosTypeIndex, raw =>
      if smbiosTypeIndex ≠ lIndex ∨ memory raw ≠ lType then
        if memory raw = typeEndOfTable then some 0
        else do
          let smbiosTypeIndex := if memory raw = lType then smbiosTypeIndex + 1 else smbiosTypeIndex
          let length ← smbiosTableLength memory raw
          tableFromTypeFrom memory lType lIndex rounds smbiosTypeIndex (raw + length)
      else some raw

/-- `GetSmbiosTableFromType`. -/
def getSmbiosTableFromType (memory : Memory) (tableAddress : Nat) (lType : UInt8) (lIndex rounds : Nat) : Option Nat :=
  if tableAddress = 0 then some 0 else tableFromTypeFrom memory lType lIndex rounds 0 tableAddress

/-- The terminator of the string at an address. -/
def stringEnd (memory : Memory) : Nat → Nat → Option Nat
  | 0, _ => none
  | rounds + 1, aString => if memory aString = 0 then some aString else stringEnd memory rounds (aString + 1)

/-- `GetSmbiosString`: the string of that number, or the zero that ends the structure. -/
def getSmbiosStringFrom (memory : Memory) (string : UInt8) : Nat → UInt8 → Nat → Option Nat
  | 0, _, _ => none
  | rounds + 1, lIndex, aString =>
      if lIndex = string then some aString
      else do
        let terminator ← stringEnd memory (2 ^ 64) aString
        if memory (terminator + 1) = 0 then some (terminator + 1)
        else getSmbiosStringFrom memory string rounds (lIndex + 1) (terminator + 1)

def getSmbiosString (memory : Memory) (raw : Nat) (string : UInt8) : Option Nat :=
  getSmbiosStringFrom memory string (2 ^ 64) 1 (firstString memory raw)

/-- The first loop of `UpdateSmbiosString`: the place of the string the field refers to, or the end of the structure,
whose number the field is then given. -/
def placeFrom (field : Nat) (memory : Memory) : Nat → UInt8 → Nat → Option (Memory × Nat)
  | 0, _, _ => none
  | rounds + 1, lIndex, aString =>
      if lIndex = memory field then some (memory, aString)
      else do
        let lIndex := if memory aString ≠ 0 then lIndex + 1 else lIndex
        let terminator ← stringEnd memory (2 ^ 64) aString
        let aString := terminator + 1
        if memory aString = 0 then
          let memory := if memory field = 0 then store memory (aString + 1) [0] else memory
          some (store memory field [lIndex], if lIndex = 1 then aString - 1 else aString)
        else placeFrom field memory rounds lIndex aString

/-- `AsciiStrnLenS`. -/
def asciiStrnLenS (memory : Memory) : Nat → Nat → Nat
  | 0, _ => 0
  | maxSize + 1, string => if memory string = 0 then 0 else asciiStrnLenS memory maxSize (string + 1) + 1

/-- The loop `*(--C2) = *(--C1)`. -/
def copyDown (memory : Memory) : Nat → Nat → Nat → Memory
  | 0, _, _ => memory
  | count + 1, c1, c2 => copyDown (store memory (c2 - 1) [memory (c1 - 1)]) count (c1 - 1) (c2 - 1)

/-- The loop `*C2++ = *C1++`. -/
def copyUp (memory : Memory) : Nat → Nat → Nat → Memory
  | 0, _, _ => memory
  | count + 1, c1, c2 => copyUp (store memory c2 [memory c1]) count (c1 + 1) (c2 + 1)

/-- Make the string at `aString` as long as another one; a loop that misses its end does not stop. -/
def moveTail (memory : Memory) (aString oldEnd aLength bLength : Nat) : Option Memory :=
  if aLength < bLength then
    if oldEnd < aString then none
    else
      let newEnd := oldEnd + bLength - aLength
      some (copyDown (store memory newEnd [0]) (oldEnd - aString) oldEnd newEnd)
  else if bLength < aLength then
    if oldEnd < aString + aLength then none
    else
      let count := oldEnd - (aString + aLength)
      let c2 := aString + bLength + count
      some (store (store (copyUp memory count (aString + aLength) (aString + bLength)) c2 [0]) (c2 - 1) [0])
  else some memory

inductive UpdateStatus where
  | success
  | notFound
  deriving DecidableEq

/-- `UpdateSmbiosString`. The length of the original structure that is taken at the end is not used. -/
def updateSmbiosString (memory : Memory) (raw field : Nat) (buffer : Option Bytes) : Option (Memory × UpdateStatus) := do
  let length ← smbiosTableLength memory raw
  match buffer with
  | none => some (memory, .notFound)
  | some buffer =>
      if raw = 0 ∨ field = 0 then some (memory, .notFound)
      else do
        let place ← placeFrom field memory (2 ^ 64) 1 (firstString memory raw)
        let aLength := asciiStrnLenS place.1 stringMaxLength place.2
        let text := (cstr buffer).take stringMaxLength
        let moved ← moveTail place.1 place.2 (raw + length) aLength text.length
        some (store (store moved place.2 text) (place.2 + text.length) [0], .success)

/-! ### Strings in a row -/

/-- Strings with their terminators. -/
def terminated (strings : List Bytes) : Bytes := strings.flatMap (· ++ [0])

/-- The string set of a structure: without strings, two zeros. -/
def stringSet (strings : List Bytes) : Bytes := if strings = [] then [0, 0] else terminated strings ++ [0]

/-- A string is not empty and has no zero in it. -/
def IsText (s : Bytes) : Prop := s ≠ [] ∧ 0 ∉ s

instance : DecidablePred IsText := fun s => inferInstanceAs (Decidable (s ≠ [] ∧ 0 ∉ s))

/-- The string of a number; zero is for none. -/
def stringOf (strings : List Bytes) (number : Nat) : Option Bytes :=
  match number with
  | 0 => none
  | number + 1 => strings[number]?

/-- A well-formed structure: the header is in the formatted area, the number of a string is a byte, and the length
a word of 16 bits. -/
structure IsStructure (memory : Memory) (raw : Nat) (strings : List Bytes) : Prop where
  header : 4 ≤ (memory (raw + 1)).toNat
  texts : ∀ s ∈ strings, IsText s
  numbers : strings.length ≤ 255
  size : (memory (raw + 1)).toNat + (stringSet strings).length < 2 ^ 16
  stands : holds memory (firstString memory raw) (stringSet strings) = true

end BareBoot.Smbios
