import BareBoot.AcpiTables
import BareBoot.Word

/-! `FindBin`, `move_data` and `FixAny` of `fixSDT.c`, and the loop of `PatchACPI` over the patches of the
DSDT. Lengths and positions are `UINT32`, offsets `INT32`; the search for more bytes than the table has
runs past every `UINT32` counter, and is over only where it finds them. -/

namespace BareBoot.Acpi

/-- The bytes of `bin` stand at `at'`. -/
def matchesAt (byte : Nat → UInt8) (at' : Nat) (bin : Nat → UInt8) (n : Nat) : Bool :=
  (List.range n).all fun j => byte (at' + j) == bin j

/-- `FindBin (dsdt + base, len, bin, N)`; without a result it does not return. -/
def findBin (byte : Nat → UInt8) (base len : Nat) (bin : Nat → UInt8) (n : Nat) : Option Int :=
  if n ≤ len then
    match (List.range (len - n)).find? fun i => matchesAt byte (base + i) bin n with
    | none => some (-1)
    | some i => some (i32 i)
  else ((List.range (2 ^ 32)).find? fun i => matchesAt byte (base + i) bin n).map fun i => i32 i

/-- `buffer[i] = buffer[i - offset]` upwards, for `offset = -k`. -/
def moveToFront (k : Nat) : Nat → Nat → Block → Block
  | 0, _, buffer => buffer
  | count + 1, i, buffer => moveToFront k count (i + 1) (buffer.write i 1 fun _ => buffer.byte (i + k))

/-- `buffer[i + offset] = buffer[i]` downwards to `start`, for `offset = k`. -/
def moveToBack (k start : Nat) : Nat → Block → Block
  | 0, buffer => buffer
  | count + 1, buffer =>
      moveToBack k start count (buffer.write (start + count + k) 1 fun _ => buffer.byte (start + count))

def moveData (start : Nat) (buffer : Block) (len : Nat) (offset : Int) : Block × Nat :=
  (if offset < 0 then moveToFront offset.natAbs (u32 (len + offset) - start) start buffer
    else moveToBack offset.toNat start (len - start) buffer,
  u32 (len + offset))

/-- One entry of `PatchDsdtFind`, `LenToFind`, `PatchDsdtReplace` and `LenToReplace`; a missing
pointer is `NULL`. -/
structure Patch where
  find : Option (Nat → UInt8)
  lenToFind : Nat
  replace : Option (Nat → UInt8)
  lenToReplace : Nat
  find_lt : lenToFind < 2 ^ 32
  replace_lt : lenToReplace < 2 ^ 32

namespace Patch

def sizeOffset (patch : Patch) : Int := i32 (patch.lenToReplace - patch.lenToFind)

/-- `CopyMem` of the replacement, where there is one. -/
def put (patch : Patch) (i : Nat) (dsdt : Block) : Block :=
  match patch.replace with
  | none => dsdt
  | some bytes => if 0 < patch.lenToReplace then dsdt.write i patch.lenToReplace bytes else dsdt

end Patch

/-- The loop of `FixAny`; each round but one that ends it comes nearer to the end of the table. -/
def fixLoop (patch : Patch) (find : Nat → UInt8) : Nat → Nat → Nat → Block → Option (Block × Nat)
  | 0, _, _, _ => none
  | rounds + 1, i, len, dsdt =>
      if i < len then
        match findBin dsdt.byte i len find patch.lenToFind with
        | none => none
        | some adr =>
            if adr < 0 then some (dsdt, len)
            else
              let i := u32 (i + adr)
              let moved := moveData i dsdt len patch.sizeOffset
              fixLoop patch find rounds (u32 (i + patch.lenToReplace + 1)) moved.2 (patch.put i moved.1)
      else some (dsdt, len)

def fixAny (dsdt : Block) (len : Nat) (patch : Patch) : Option (Block × Nat) :=
  match patch.find with
  | none => some (dsdt, len)
  | some find =>
      if len < u32 (patch.lenToFind + 20) then some (dsdt, len)
      else fixLoop patch find (2 ^ 32) 20 len dsdt

/-- The loop over `gSettings.PatchDsdtNum` patches. -/
def fixDsdt : List Patch → Block → Nat → Option (Block × Nat)
  | [], dsdt, len => some (dsdt, len)
  | patch :: patches, dsdt, len => do
      let fixed ← fixAny dsdt len patch
      fixDsdt patches fixed.1 fixed.2

/-- The new place for the DSDT: `bufferLen + bufferLen / 8` bytes in whole pages, the old table in front. -/
def dsdtBuffer (bios : Nat → UInt8) (bufferLen : Nat) (content : Nat → UInt8) : Block :=
  (Block.fresh (4096 * sizeToPages (bufferLen + bufferLen / 8)) content).write 0 bufferLen bios

/-! ### What moving does -/

section Move

variable {b : Block} {k start count i : Nat}

theorem byte_moveToFront (a : Nat) :
    (moveToFront k count i b).byte a = if i ≤ a ∧ a < i + count then b.byte (a + k) else b.byte a := by
  induction count generalizing i b with
  | zero => rw [moveToFront, if_neg (by omega)]
  | succ count ih =>
      rw [moveToFront, ih]
      by_cases ha : i + 1 ≤ a ∧ a < i + 1 + count
      · rw [if_pos ha, if_pos (by omega), Block.byte_write_outside (by omega)]
      · rw [if_neg ha]
        by_cases hi : a = i
        · subst hi
          rw [if_pos (by omega)]
          exact Block.byte_write_inside (i := 0) Nat.one_pos
        · rw [if_neg (by omega), Block.byte_write_outside (by omega)]

theorem byte_moveToBack (a : Nat) :
    (moveToBack k start count b).byte a =
      if start + k ≤ a ∧ a < start + k + count then b.byte (a - k) else b.byte a := by
  induction count generalizing b with
  | zero => rw [moveToBack, if_neg (by omega)]
  | succ count ih =>
      rw [moveToBack, ih]
      by_cases ha : start + k ≤ a ∧ a < start + k + count
      · rw [if_pos ha, if_pos (by omega), Block.byte_write_outside (by omega)]
      · rw [if_neg ha]
        by_cases hlast : a = start + count + k
        · subst hlast
          rw [if_pos (by omega), Nat.add_sub_cancel]
          exact Block.byte_write_inside (i := 0) Nat.one_pos
        · rw [if_neg (by omega), Block.byte_write_outside (by omega)]

@[simp] theorem size_moveToFront : (moveToFront k count i b).size = b.size := by
  induction count generalizing i b with
  | zero => rfl
  | succ count ih => rw [moveToFront, ih, Block.size_write]

@[simp] theorem size_moveToBack : (moveToBack k start count b).size = b.size := by
  induction count generalizing b with
  | zero => rfl
  | succ count ih => rw [moveToBack, ih, Block.size_write]

@[simp] theorem size_moveData {len : Nat} {offset : Int} : (moveData start b len offset).1.size = b.size := by
  unfold moveData
  split_ifs
  · exact size_moveToFront
  · exact size_moveToBack

@[simp] theorem Patch.size_put (patch : Patch) : (patch.put i b).size = b.size := by
  unfold Patch.put
  split
  · rfl
  · split_ifs <;> rfl

end Move

theorem size_fixLoop {patch : Patch} {find : Nat → UInt8} {rounds i len : Nat} {dsdt : Block}
    {fixed : Block × Nat} (h : fixLoop patch find rounds i len dsdt = some fixed) : fixed.1.size = dsdt.size := by
  induction rounds generalizing i len dsdt with
  | zero => cases h
  | succ rounds ih =>
      rw [fixLoop] at h
      by_cases hi : i < len
      · rw [if_pos hi] at h
        cases hfind : findBin dsdt.byte i len find patch.lenToFind with
        | none =>
            rw [hfind] at h
            cases h
        | some adr =>
            rw [hfind] at h
            dsimp only at h
            by_cases hadr : adr < 0
            · rw [if_pos hadr, Option.some.injEq] at h
              rw [← h]
            · rw [if_neg hadr] at h
              rw [ih h, Patch.size_put, size_moveData]
      · rw [if_neg hi, Option.some.injEq] at h
        rw [← h]

theorem size_fixAny {patch : Patch} {len : Nat} {dsdt : Block} {fixed : Block × Nat}
    (h : fixAny dsdt len patch = some fixed) : fixed.1.size = dsdt.size := by
  unfold fixAny at h
  split at h
  · rw [← Option.some.inj h]
  · split_ifs at h
    · rw [← Option.some.inj h]
    · exact size_fixLoop h

end BareBoot.Acpi
