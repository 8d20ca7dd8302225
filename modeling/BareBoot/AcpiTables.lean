import BareBoot.Block
import BareBoot.Compaction

/-! The two root tables of `AcpiPatcher.c` and the functions that drop tables from them and insert
tables into them. An entry is followed by its address; an address without an object (`NULL` among them)
has no table to read. -/

namespace BareBoot.Acpi

/-! ### Description headers -/

def signature (table : Block) : Nat := table.word 4 0
def length (table : Block) : Nat := table.word 4 4
def oemTableId (table : Block) : Nat := table.word 8 16
def setLength (table : Block) (value : Nat) : Block := table.store 4 4 value

/-- The positions of the fields that say which table this is. -/
def Naming (a : Nat) : Prop := a < 4 ∨ 16 ≤ a ∧ a < 24

theorem signature_of_agrees {b c : Block} (h : b.Agrees Naming c) : signature c = signature b :=
  h.word fun i hi => Or.inl (by omega)

theorem oemTableId_of_agrees {b c : Block} (h : b.Agrees Naming c) : oemTableId c = oemTableId b :=
  h.word fun i hi => Or.inr (by omega)

theorem agrees_setLength (b : Block) (value : Nat) : b.Agrees Naming (setLength b value) :=
  Block.agrees_store fun a ha => by
    unfold Naming at ha
    omega

theorem length_setLength {b : Block} {value : Nat} (h : value < 2 ^ 32) : length (setLength b value) = value :=
  Block.word_store_of_lt h

theorem length_lt (b : Block) : length b < 2 ^ 32 := Block.word_lt b 4 4

/-! ### Root tables

`RSDT_TABLE` and `XSDT_TABLE` are packed: entries of 4 and of 8 bytes right behind the header. -/

section Root

variable (w : Nat)

def entry (table : Block) (i : Nat) : Nat := table.word w (36 + w * i)

/-- `(Header.Length - sizeof (EFI_ACPI_DESCRIPTION_HEADER)) / sizeof (entry)`, kept in a `UINT32`. -/
def entryCount (table : Block) : Nat := (length table + 2 ^ 64 - 36) % 2 ^ 64 / w % 2 ^ 32

/-- `Header.Length -= sizeof (entry)`. -/
def shorten (table : Block) : Block := setLength table ((length table + 2 ^ 32 - w) % 2 ^ 32)

/-- `*Ptr++ = *Ptr2++`, `count` times. -/
def moveDown : Nat → Nat → Block → Block
  | 0, _, table => table
  | count + 1, ptr, table => moveDown count (ptr + w) (table.store w ptr (table.word w (ptr + w)))

def followed (address : Nat) (run : Heap × List Nat) : Heap × List Nat := (run.1, address :: run.2)

/-- The loop over the entries that are left, with the addresses it follows. -/
def dropEntries (root sig tableId : Nat) : Nat → Nat → Heap → Option (Heap × List Nat)
  | 0, _, memory => some (memory, [])
  | todo + 1, entryPtr, memory => do
      let rootTable ← memory root
      let address := rootTable.word w entryPtr
      if address = 0 then
        dropEntries root sig tableId todo (entryPtr + w) (memory.set root (shorten w rootTable))
      else do
        let table ← memory address
        Option.map (followed address) <|
          if signature table ≠ sig then dropEntries root sig tableId todo (entryPtr + w) memory
          else if tableId ≠ 0 ∧ tableId ≠ oemTableId table then
            dropEntries root sig tableId todo (entryPtr + w) memory
          else
            dropEntries root sig tableId todo entryPtr
              (memory.set root (shorten w (moveDown w (todo + 1) entryPtr rootTable)))

def dropTable (root sig tableId : Nat) (memory : Heap) : Option (Heap × List Nat) := do
  let rootTable ← memory root
  dropEntries w root sig tableId (entryCount w rootTable) 36 memory

/-- What `InsertTable` does to a root that is there. -/
def appendEntry (root value : Nat) (memory : Heap) : Option Heap :=
  if root = 0 then some memory
  else do
    let rootTable ← memory root
    let written := rootTable.store w (length rootTable) value
    some (memory.set root (setLength written ((length written + w) % 2 ^ 32)))

end Root

inductive Status
  | success
  | notFound
  | outOfResources
  | unsupported
  deriving DecidableEq, Repr

/-- Pages handed out by `AllocatePages`, with what they hold. -/
structure Pages where
  address : Nat
  content : Nat → UInt8

/-- `EFI_SIZE_TO_PAGES`. -/
def sizeToPages (size : Nat) : Nat := size / 4096 + if size % 4096 = 0 then 0 else 1

/-- The globals `Rsdt` and `Xsdt`, and memory. -/
structure Tables where
  rsdt : Nat
  xsdt : Nat
  memory : Heap

def dropTableFromRsdt (sig tableId : Nat) (s : Tables) : Option (Tables × List Nat) := do
  let (memory, followed) ← dropTable 4 s.rsdt sig tableId s.memory
  some ({ s with memory }, followed)

def dropTableFromXsdt (sig tableId : Nat) (s : Tables) : Option (Tables × List Nat) := do
  let (memory, followed) ← dropTable 8 s.xsdt sig tableId s.memory
  some ({ s with memory }, followed)

/-- The copy of a table in new pages. -/
def tableCopy (table : Nat → UInt8) (size : Nat) (pages : Pages) : Block :=
  (Block.fresh (4096 * sizeToPages size) pages.content).write 0 size table

def insertTable (table : Option (Nat → UInt8)) (size : Nat) (allocated : Except Status Pages) (s : Tables) :
    Option (Tables × Status) :=
  match table, allocated with
  | none, _ => some (s, .notFound)
  | some _, .error status => some (s, status)
  | some table, .ok pages => do
      let memory := s.memory.set pages.address (tableCopy table size pages)
      let memory ← appendEntry 4 s.rsdt pages.address memory
      let memory ← appendEntry 8 s.xsdt pages.address memory
      some ({ s with memory }, .success)

/-! ### One root -/

section Root

variable {w : Nat} {b : Block} {memory : Heap} {root sig tableId : Nat}

theorem entry_lt (i : Nat) : entry w b i < 256 ^ w := Block.word_lt b w _

theorem mul_add_le {i j : Nat} (h : i < j) : w * i + w ≤ w * j := by
  calc w * i + w = w * (i + 1) := by ring
    _ ≤ w * j := Nat.mul_le_mul_left w h

theorem entry_store (i value : Nat) :
    entry w (b.store w (36 + w * i) value) = Function.update (entry w b) i (value % 256 ^ w) := by
  funext j
  by_cases hj : j = i
  · subst hj
    rw [Function.update_self]
    exact Block.word_store_self
  · rw [Function.update_of_ne hj]
    apply Block.word_store_outside
    rcases Nat.lt_or_gt_of_ne hj with hlt | hgt
    · exact Or.inl (by have := mul_add_le (w := w) hlt; omega)
    · exact Or.inr (by have := mul_add_le (w := w) hgt; omega)

theorem entry_setLength (value : Nat) : entry w (setLength b value) = entry w b := by
  funext i
  exact Block.word_store_outside (Or.inr (by omega))

/-- What a change to the entries of a root leaves alone. -/
structure Frame (b c : Block) : Prop where
  size : c.size = b.size
  overrun : c.overrun = b.overrun
  naming : b.Agrees Naming c

theorem Frame.refl (b : Block) : Frame b b := ⟨rfl, rfl, Block.Agrees.refl _ _⟩

theorem Frame.trans {b c d : Block} (h : Frame b c) (h' : Frame c d) : Frame b d where
  size := h'.size.trans h.size
  overrun := h'.overrun.trans h.overrun
  naming := h.naming.trans h'.naming

theorem frame_store {off value : Nat} (h : 36 ≤ off) (hsize : off + w ≤ b.size) : Frame b (b.store w off value) where
  size := rfl
  overrun := Block.overrun_store hsize
  naming := Block.agrees_store fun a ha => by
    unfold Naming at ha
    omega

theorem frame_setLength {value : Nat} (hsize : 36 ≤ b.size) : Frame b (setLength b value) where
  size := rfl
  overrun := Block.overrun_store (by omega)
  naming := agrees_setLength b value

theorem entry_moveDown (count i : Nat) :
    entry w (moveDown w count (36 + w * i) b) = closeGap (entry w b) i count := by
  induction count generalizing i b with
  | zero =>
      funext j
      rw [closeGap, if_neg (by omega)]
      rfl
  | succ count ih =>
      rw [moveDown, show 36 + w * i + w = 36 + w * (i + 1) by ring, ih, entry_store]
      have hself : b.word w (36 + w * (i + 1)) % 256 ^ w = entry w b (i + 1) := Nat.mod_eq_of_lt (entry_lt _)
      rw [hself]
      funext j
      simp only [closeGap, Function.update_apply]
      by_cases hj : j = i
      · subst hj
        rw [if_neg (by omega), if_pos rfl, if_pos (by omega)]
      · by_cases hin : i + 1 ≤ j ∧ j < i + 1 + count
        · rw [if_pos hin, if_neg (by omega), if_pos (by omega)]
        · rw [if_neg hin, if_neg hj, if_neg (by omega)]

theorem moveDown_frame {count i : Nat} (hsize : 36 + w * (i + count) ≤ b.size) :
    Frame b (moveDown w count (36 + w * i) b) ∧ length (moveDown w count (36 + w * i) b) = length b := by
  induction count generalizing i b with
  | zero => exact ⟨Frame.refl b, rfl⟩
  | succ count ih =>
      have hroom : 36 + w * i + w ≤ b.size := by
        have := mul_add_le (w := w) (show i < i + (count + 1) by omega)
        omega
      rw [moveDown, show 36 + w * i + w = 36 + w * (i + 1) by ring]
      have hstep := ih (b := b.store w (36 + w * i) (b.word w (36 + w * (i + 1)))) (i := i + 1)
        (by rw [Block.size_store, show i + 1 + count = i + (count + 1) by omega]; exact hsize)
      refine ⟨(frame_store (by omega) hroom).trans hstep.1, hstep.2.trans ?_⟩
      exact Block.word_store_outside (Or.inl (by omega))

end Root

end BareBoot.Acpi
