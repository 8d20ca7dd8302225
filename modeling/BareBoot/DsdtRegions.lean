import BareBoot.DsdtPatch

/-! `GetName`, `FindName`, `GetBiosRegions` and `FixRegions` of `fixSDT.c`: operation regions found by their
bytes, and the place where the address of one is kept. Extractor and patcher test the operand in the
same order, so one function says where it is. -/

namespace BareBoot.Acpi

structure OperRegion where
  name : List UInt8
  address : Nat

/-- A character of a name. -/
def nameChar (c : UInt8) : Bool := !(c < 0x2F || (0x39 < c && c < 0x41) || (0x5A < c && c != 0x5F))

/-- `GetName`: the four characters, and 1 when a backslash stands in front of them. -/
def getName (byte : Nat → UInt8) (adr : Nat) : Option (List UInt8 × Nat) :=
  let shift := if byte adr = 0x5C then 1 else 0
  let name := (List.range 4).map fun i => byte (adr + shift + i)
  if name.all nameChar then some (name, shift) else none

/-- `FindName`: behind the first byte 8 with the name, 0 when there is none; `len` is an `INT32`. -/
def findName (byte : Nat → UInt8) (len : Nat) (name : List UInt8) : Nat :=
  if len < 2 ^ 31 then
    match (List.range (len - 4)).find? fun i =>
        decide (byte i = 0x08 ∧ (List.range 4).map (fun j => byte (i + 1 + j)) = name) with
    | none => 0
    | some i => i + 1
  else 0

/-- A constant of four or two bytes behind its prefix. -/
def constantAt (byte : Nat → UInt8) (at' : Nat) : Option (Nat × Nat) :=
  if byte at' = 0x0C then some (at' + 1, 4)
  else if byte at' = 0x0B then some (at' + 1, 2)
  else none

/-- Where the address operand at `at'` is kept: in place, or in the object it names. -/
def addressAt (byte : Nat → UInt8) (len at' : Nat) : Option (Nat × Nat) :=
  match constantAt byte at' with
  | some place => some place
  | none =>
      match getName byte at' with
      | none => none
      | some (name, _) => if findName byte len name = 0 then none else constantAt byte (findName byte len name + 4)

/-- The name of an operation region at `i`, and the place behind it. -/
def regionAt (byte : Nat → UInt8) (i : Nat) : Option (List UInt8 × Nat) :=
  if byte i = 0x5B ∧ byte (i + 1) = 0x80 then (getName byte (i + 2)).map fun found => (found.1, i + 6 + found.2)
  else none

/-- `i < len - 15`, in `UINT32`. -/
def scanned (first len : Nat) : List Nat := (List.range (u32 ((len : Int) - 15) - first)).map fun i => first + i

/-! ### The regions of the firmware's table -/

/-- The region of the system memory at `i`. -/
def biosRegion (byte : Nat → UInt8) (len i : Nat) : Option OperRegion :=
  match regionAt byte i with
  | none => none
  | some (name, space) =>
      if byte space = 0 then
        some ⟨name, match addressAt byte len (space + 1) with
          | none => 0
          | some (place, width) => wordAt byte width place⟩
      else none

/-- The last region found is the first of the list. -/
def getBiosRegions (byte : Nat → UInt8) (bufferLen : Nat) : List OperRegion :=
  ((scanned 0x24 bufferLen).filterMap (biosRegion byte bufferLen)).reverse

/-! ### The regions of the table to patch -/

/-- What `FixRegions` does at `i`. Both names have four characters, so that `AsciiStrStr` compares them. -/
def fixRegion (regions : List OperRegion) (len : Nat) (dsdt : Block) (i : Nat) : Block :=
  match regionAt dsdt.byte i with
  | none => dsdt
  | some (name, space) =>
      match regions.find? fun p => decide (p.name = name) with
      | none => dsdt
      | some p =>
          if p.address = 0 then dsdt
          else
            match addressAt dsdt.byte len (space + 1) with
            | none => dsdt
            | some (place, width) => dsdt.store width place p.address

def fixRegions (regions : List OperRegion) (dsdt : Block) (len : Nat) : Block :=
  if regions = [] then dsdt else (scanned 0x20 len).foldl (fixRegion regions len) dsdt

/-! ### Where the patcher writes -/

section Writes

variable {byte : Nat → UInt8} {len at' place width : Nat}

theorem constantAt_some (h : constantAt byte at' = some (place, width)) : place = at' + 1 ∧ (width = 4 ∨ width = 2) := by
  unfold constantAt at h
  split_ifs at h <;> simp only [Option.some.injEq, Prod.mk.injEq] at h <;> omega

theorem findName_bounds {name : List UInt8} (h : findName byte len name ≠ 0) :
    findName byte len name + 4 ≤ len ∧ byte (findName byte len name - 1) = 0x08 := by
  unfold findName at h ⊢
  split_ifs at h ⊢ with hlen
  · cases hfind : (List.range (len - 4)).find? fun i =>
        decide (byte i = 0x08 ∧ (List.range 4).map (fun j => byte (i + 1 + j)) = name) with
    | none =>
        rw [hfind] at h
        exact absurd rfl h
    | some i =>
        have hmem := List.mem_of_find?_eq_some hfind
        have hmatch := List.find?_some hfind
        rw [List.mem_range] at hmem
        rw [decide_eq_true_eq] at hmatch
        change i + 1 + 4 ≤ len ∧ byte (i + 1 - 1) = 0x08
        exact ⟨by omega, hmatch.1⟩
  · exact absurd rfl h

/-- The address is kept behind the operand's prefix, or four bytes behind a byte 8. -/
theorem addressAt_some (h : addressAt byte len at' = some (place, width)) :
    (width = 4 ∨ width = 2) ∧ (place = at' + 1 ∨ ∃ j, place = j + 6 ∧ byte j = 0x08 ∧ j + 5 ≤ len) := by
  unfold addressAt at h
  cases hconst : constantAt byte at' with
  | some found =>
      rw [hconst, Option.some.injEq] at h
      subst h
      obtain ⟨hplace, hwidth⟩ := constantAt_some hconst
      exact ⟨hwidth, Or.inl hplace⟩
  | none =>
      rw [hconst] at h
      dsimp only at h
      split at h
      · cases h
      · rename_i name _ _
        split_ifs at h with hfound
        obtain ⟨hend, hpre⟩ := findName_bounds hfound
        obtain ⟨hplace, hwidth⟩ := constantAt_some h
        exact ⟨hwidth, Or.inr ⟨findName byte len name - 1, by omega, hpre, by omega⟩⟩

end Writes

end BareBoot.Acpi
