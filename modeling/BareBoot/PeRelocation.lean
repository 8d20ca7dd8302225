import BareBoot.Block
import Mathlib.Tactic.IntervalCases

/-! The base relocations of a PE image. Each word that holds an address of the image is moved by the distance from the
address that the image was linked for to the one where it lies, and its new value is saved in pages of its own. -/

namespace BareBoot

/-! ### Words in memory -/

def storeWord (memory : Nat → UInt8) (width a value : Nat) : Nat → UInt8 :=
  fun x => if a ≤ x ∧ x < a + width then wordByte value (x - a) else memory x

section Words

variable {memory f g : Nat → UInt8} {width a value x : Nat}

theorem storeWord_outside (h : x < a ∨ a + width ≤ x) : storeWord memory width a value x = memory x :=
  if_neg (by omega)

theorem wordAt_storeWord : wordAt (storeWord memory width a value) width a = value % 256 ^ width := by
  apply wordAt_wordByte
  intro i hi
  rw [storeWord, if_pos (by omega), Nat.add_sub_cancel_left]

theorem wordAt_storeWord_outside {width' a' : Nat} (h : a' + width' ≤ a ∨ a + width ≤ a') :
    wordAt (storeWord memory width a value) width' a' = wordAt memory width' a' := by
  apply wordAt_congr
  intro i hi
  exact storeWord_outside (by omega)

theorem byte_eq_of_wordAt (h : wordAt f width a = wordAt g width a) (hx : a ≤ x ∧ x < a + width) : f x = g x := by
  induction width generalizing a with
  | zero => omega
  | succ width ih =>
      rw [wordAt, wordAt] at h
      have hf := (f a).toNat_lt
      have hg := (g a).toNat_lt
      by_cases hfirst : a = x
      · subst hfirst
        exact UInt8.toNat_inj.1 (by omega)
      · exact ih (a := a + 1) (by omega) (by omega)

end Words

end BareBoot

namespace BareBoot.PeImage

abbrev Memory := Nat → UInt8

/-- Where an image lies. -/
structure LoadedImage where
  imageBase : Nat
  imageEof : Nat

/-- `NULL` outside the image. -/
def efiLdrPeCoffImageAddress (image : LoadedImage) (address : Nat) : Nat :=
  let fixedAddress := (image.imageBase + address) % 2 ^ 64
  if fixedAddress < image.imageBase ∨ image.imageEof < fixedAddress then 0 else fixedAddress

def EFI_IMAGE_REL_BASED_ABSOLUTE : Nat := 0
def EFI_IMAGE_REL_BASED_HIGH : Nat := 1
def EFI_IMAGE_REL_BASED_LOW : Nat := 2
def EFI_IMAGE_REL_BASED_HIGHLOW : Nat := 3
def EFI_IMAGE_REL_BASED_DIR64 : Nat := 10

def alignPointer (pointer alignment : Nat) : Nat := pointer + (alignment - pointer % alignment) % alignment

structure State where
  memory : Memory
  fixupData : Nat

/-- Adds to the word at `fixup` and saves the sum. -/
def State.fix (width alignment amount fixup : Nat) (s : State) : State :=
  let memory := storeWord s.memory width fixup (wordAt s.memory width fixup + amount)
  if s.fixupData = 0 then { s with memory := memory }
  else
    let fixupData := alignPointer s.fixupData alignment
    ⟨storeWord memory width fixupData (wordAt memory width fixup), fixupData + width⟩

/-- One relocation, or `none` in `CpuDeadLoop`, for `EFI_IMAGE_REL_BASED_HIGHADJ` and the unknown ones. -/
def relocate (adjust fixupBase reloc : Nat) (s : State) : Option State :=
  let fixup := fixupBase + reloc % 4096
  let type := reloc / 4096
  if type = EFI_IMAGE_REL_BASED_ABSOLUTE then some s
  else if type = EFI_IMAGE_REL_BASED_HIGH then some (s.fix 2 1 (adjust % 2 ^ 32 / 2 ^ 16) fixup)
  else if type = EFI_IMAGE_REL_BASED_LOW then some (s.fix 2 1 (adjust % 2 ^ 16) fixup)
  else if type = EFI_IMAGE_REL_BASED_HIGHLOW then some (s.fix 4 4 (adjust % 2 ^ 32) fixup)
  else if type = EFI_IMAGE_REL_BASED_DIR64 then some (s.fix 8 8 (adjust % 2 ^ 64) fixup)
  else none

/-- The relocations of one record. -/
def relocateRecord (adjust fixupBase : Nat) : Nat → Nat → State → Option State
  | 0, _, s => some s
  | count + 1, reloc, s =>
      (relocate adjust fixupBase (wordAt s.memory 2 reloc) s).bind (relocateRecord adjust fixupBase count (reloc + 2))

inductive Relocated where
  | loadError
  | outOfResources
  | deadLoop
  | success (s : State)

/-- The records. A record of no size is met again and again. -/
def relocateRecords (image : LoadedImage) (adjust relocBaseEnd : Nat) : Nat → Nat → State → Relocated
  | 0, _, _ => .deadLoop
  | rounds + 1, relocBase, s =>
      if relocBaseEnd ≤ relocBase then .success s
      else
        let relocEnd := relocBase + wordAt s.memory 4 (relocBase + 4)
        let fixupBase := efiLdrPeCoffImageAddress image (wordAt s.memory 4 relocBase)
        if relocEnd < image.imageBase ∨ image.imageEof < relocEnd then .loadError
        else
          match relocateRecord adjust fixupBase ((relocEnd - (relocBase + 8) + 1) / 2) (relocBase + 8) s with
          | none => .deadLoop
          | some s => relocateRecords image adjust relocBaseEnd rounds relocEnd s

/-- `EFI_SIZE_TO_PAGES`. -/
def sizeToPages (size : Nat) : Nat := size / 4096 + if size % 4096 = 0 then 0 else 1

def noFixupPages (size : Nat) : Nat := sizeToPages (size / 2 * 8)

/-- `fixupData` is what `FindSpace` returns for `noFixupPages size` pages. -/
def efiLdrPeCoffLoadPeRelocate (image : LoadedImage) (virtualAddress size adjust fixupData : Nat) (memory : Memory) :
    Relocated :=
  let relocBase := efiLdrPeCoffImageAddress image virtualAddress
  let relocBaseEnd := efiLdrPeCoffImageAddress image ((virtualAddress + size) % 2 ^ 32)
  if relocBase = 0 ∨ relocBaseEnd = 0 then .loadError
  else if fixupData = 0 then .outOfResources
  else relocateRecords image adjust relocBaseEnd (relocBaseEnd - relocBase + 1) relocBase ⟨memory, fixupData⟩

section Rounds

variable {image : LoadedImage} {adjust relocBase relocBaseEnd : Nat} {s : State}

/-- A record of no size is met until the machine is turned off. -/
theorem relocateRecords_stuck (hlow : relocBase < relocBaseEnd) (hsize : wordAt s.memory 4 (relocBase + 4) = 0)
    (hin : ¬(relocBase < image.imageBase ∨ image.imageEof < relocBase)) (rounds : Nat) :
    relocateRecords image adjust relocBaseEnd rounds relocBase s = .deadLoop := by
  induction rounds with
  | zero => rfl
  | succ rounds ih =>
      have hcount : (relocBase - (relocBase + 8) + 1) / 2 = 0 := by omega
      rw [relocateRecords, if_neg (Nat.not_le_of_lt hlow), hsize]
      dsimp only
      rw [Nat.add_zero, if_neg hin, hcount, relocateRecord]
      exact ih

/-- The rounds suffice: no more of them change what happens. -/
theorem relocateRecords_rounds {rounds rounds' : Nat} (h : relocBaseEnd - relocBase < rounds)
    (h' : relocBaseEnd - relocBase < rounds') :
    relocateRecords image adjust relocBaseEnd rounds relocBase s =
      relocateRecords image adjust relocBaseEnd rounds' relocBase s := by
  induction rounds generalizing rounds' relocBase s with
  | zero => exact absurd h (Nat.not_lt_zero _)
  | succ rounds ih =>
      obtain ⟨rounds', rfl⟩ := Nat.exists_eq_succ_of_ne_zero (Nat.ne_of_gt (Nat.zero_lt_of_lt h'))
      by_cases hdone : relocBaseEnd ≤ relocBase
      · rw [relocateRecords, relocateRecords, if_pos hdone, if_pos hdone]
      by_cases hin : relocBase + wordAt s.memory 4 (relocBase + 4) < image.imageBase ∨
          image.imageEof < relocBase + wordAt s.memory 4 (relocBase + 4)
      · rw [relocateRecords, relocateRecords, if_neg hdone, if_neg hdone]
        dsimp only
        rw [if_pos hin, if_pos hin]
      by_cases hsize : wordAt s.memory 4 (relocBase + 4) = 0
      · rw [hsize, Nat.add_zero] at hin
        have hlow := Nat.lt_of_not_le hdone
        rw [relocateRecords_stuck hlow hsize hin, relocateRecords_stuck hlow hsize hin]
      · rw [relocateRecords, relocateRecords, if_neg hdone, if_neg hdone]
        dsimp only
        rw [if_neg hin, if_neg hin]
        split
        · rfl
        · exact ih (by omega) (by omega)

end Rounds

/-! ### Linked images -/

def typeWidth (type : Nat) : Nat :=
  if type = EFI_IMAGE_REL_BASED_DIR64 then 8 else if type = EFI_IMAGE_REL_BASED_HIGHLOW then 4 else 2

/-- A word that holds an address of the image, `value` behind its base. -/
structure Cell where
  address : Nat
  type : Nat
  value : Nat

namespace Cell

def width (c : Cell) : Nat := typeWidth c.type

def Covers (c : Cell) (a : Nat) : Prop := c.address ≤ a ∧ a < c.address + c.width

def Apart (c d : Cell) : Prop := c.address + c.width ≤ d.address ∨ d.address + d.width ≤ c.address

def Supported (c : Cell) : Prop :=
  c.type = EFI_IMAGE_REL_BASED_HIGH ∨ c.type = EFI_IMAGE_REL_BASED_LOW ∨ c.type = EFI_IMAGE_REL_BASED_HIGHLOW ∨
    c.type = EFI_IMAGE_REL_BASED_DIR64

/-- What the linker puts there for an image at `base`. -/
def linkedValue (base : Nat) (c : Cell) : Nat :=
  if c.type = EFI_IMAGE_REL_BASED_HIGH then (base + c.value) / 2 ^ 16 % 2 ^ 16 else (base + c.value) % 256 ^ c.width

end Cell

/-- Memory with an image that is linked for `base`, outside the pages from `pages` to `pagesEnd`. -/
structure Linked (content : Memory) (base pages pagesEnd : Nat) (cells : List Cell) (memory : Memory) : Prop where
  cell : ∀ c ∈ cells, wordAt memory c.width c.address = c.linkedValue base
  other : ∀ a, (∀ c ∈ cells, ¬c.Covers a) → a < pages ∨ pagesEnd ≤ a → memory a = content a

/-- An image linked for an address is determined by its content. -/
theorem Linked.eq {content memory memory' : Memory} {base pages pagesEnd : Nat} {cells : List Cell}
    (h : Linked content base pages pagesEnd cells memory) (h' : Linked content base pages pagesEnd cells memory')
    {a : Nat} (ha : a < pages ∨ pagesEnd ≤ a) : memory a = memory' a := by
  by_cases hcell : ∃ c ∈ cells, c.Covers a
  · obtain ⟨c, hc, hcovers⟩ := hcell
    exact byte_eq_of_wordAt ((h.cell c hc).trans (h'.cell c hc).symm) hcovers
  · have hnone : ∀ c ∈ cells, ¬c.Covers a := fun c hc hcovers => hcell ⟨c, hc, hcovers⟩
    rw [h.other a hnone ha, h'.other a hnone ha]

/-- A record of the table. -/
structure Record where
  virtualAddress : Nat
  relocs : List Nat

def Record.sizeOfBlock (r : Record) : Nat := 8 + 2 * r.relocs.length

def HoldsRelocs (memory : Memory) : Nat → List Nat → Prop
  | _, [] => True
  | a, reloc :: relocs => wordAt memory 2 a = reloc ∧ HoldsRelocs memory (a + 2) relocs

def HoldsTable (memory : Memory) : Nat → List Record → Prop
  | _, [] => True
  | a, r :: records =>
      wordAt memory 4 a = r.virtualAddress ∧ wordAt memory 4 (a + 4) = r.sizeOfBlock ∧
        HoldsRelocs memory (a + 8) r.relocs ∧ HoldsTable memory (a + r.sizeOfBlock) records

def tableSize (records : List Record) : Nat := (records.map Record.sizeOfBlock).sum

/-- The address and the type of what a relocation fixes. -/
def target (fixupBase reloc : Nat) : Option (Nat × Nat) :=
  if reloc / 4096 = EFI_IMAGE_REL_BASED_ABSOLUTE then none else some (fixupBase + reloc % 4096, reloc / 4096)

def Record.targets (imageBase : Nat) (r : Record) : List (Nat × Nat) :=
  r.relocs.filterMap (target (imageBase + r.virtualAddress))

/-! ### One relocation -/

theorem le_alignPointer (pointer alignment : Nat) : pointer ≤ alignPointer pointer alignment := Nat.le_add_right _ _

theorem alignPointer_le {pointer alignment pages count : Nat} (halign : alignment = 1 ∨ alignment = 4 ∨ alignment = 8)
    (hpages : pages % 8 = 0) (h : pointer ≤ pages + 8 * count) : alignPointer pointer alignment ≤ pages + 8 * count := by
  rw [alignPointer]
  rcases halign with rfl | rfl | rfl <;> omega

def typeAlignment (type : Nat) : Nat :=
  if type = EFI_IMAGE_REL_BASED_DIR64 then 8 else if type = EFI_IMAGE_REL_BASED_HIGHLOW then 4 else 1

def typeAmount (adjust type : Nat) : Nat :=
  if type = EFI_IMAGE_REL_BASED_HIGH then adjust % 2 ^ 32 / 2 ^ 16 else adjust % 256 ^ typeWidth type

section Fix

variable {content : Memory} {old new adjust pages pagesEnd : Nat} {done rest : List Cell} {c : Cell} {s : State}

theorem linkedValue_add (hold : old + adjust = new ∨ old + adjust = new + 2 ^ 64) (hc : c.Supported)
    (hhigh : c.type = EFI_IMAGE_REL_BASED_HIGH → adjust % 2 ^ 16 = 0) :
    (c.linkedValue old + typeAmount adjust c.type) % 256 ^ c.width = c.linkedValue new := by
  obtain ⟨address, type, value⟩ := c
  rcases hc with rfl | rfl | rfl | rfl
  · have hcarry := hhigh rfl
    change ((old + value) / 2 ^ 16 % 2 ^ 16 + adjust % 2 ^ 32 / 2 ^ 16) % 256 ^ 2 = (new + value) / 2 ^ 16 % 2 ^ 16
    omega
  · change ((old + value) % 256 ^ 2 + adjust % 256 ^ 2) % 256 ^ 2 = (new + value) % 256 ^ 2
    omega
  · change ((old + value) % 256 ^ 4 + adjust % 256 ^ 4) % 256 ^ 4 = (new + value) % 256 ^ 4
    omega
  · change ((old + value) % 256 ^ 8 + adjust % 256 ^ 8) % 256 ^ 8 = (new + value) % 256 ^ 8
    omega

theorem relocate_supported {fixupBase reloc : Nat} (hc : c.Supported) (haddress : fixupBase + reloc % 4096 = c.address)
    (htype : reloc / 4096 = c.type) :
    relocate adjust fixupBase reloc s =
      some (s.fix c.width (typeAlignment c.type) (typeAmount adjust c.type) c.address) := by
  rw [relocate, haddress, htype, Cell.width]
  generalize c.address = address
  rcases hc with hc | hc | hc | hc
  · rw [hc, if_neg (by decide), if_pos rfl]
    rfl
  · rw [hc, if_neg (by decide), if_neg (by decide), if_pos rfl]
    rfl
  · rw [hc, if_neg (by decide), if_neg (by decide), if_neg (by decide), if_pos rfl]
    rfl
  · rw [hc, if_neg (by decide), if_neg (by decide), if_neg (by decide), if_neg (by decide), if_pos rfl]
    rfl

/-- The image with the cells of `done` moved and the ones of `rest` not. -/
structure Progress (content : Memory) (old new pages pagesEnd : Nat) (done rest : List Cell) (s : State) : Prop where
  moved : ∀ c ∈ done, wordAt s.memory c.width c.address = c.linkedValue new
  unmoved : ∀ c ∈ rest, wordAt s.memory c.width c.address = c.linkedValue old
  other : ∀ a, (∀ c ∈ done ++ rest, ¬c.Covers a) → a < pages ∨ pagesEnd ≤ a → s.memory a = content a
  low : pages ≤ s.fixupData
  high : s.fixupData ≤ pages + 8 * done.length

/-- The cells lie apart from each other and from the pages, which are large enough. -/
structure Spaced (pages pagesEnd : Nat) (cells : List Cell) : Prop where
  supported : ∀ c ∈ cells, c.Supported
  apart : cells.Pairwise Cell.Apart
  outside : ∀ c ∈ cells, c.address + c.width ≤ pages ∨ pagesEnd ≤ c.address
  align : pages % 8 = 0
  pos : 0 < pages
  room : pages + 8 * cells.length ≤ pagesEnd

theorem width_le (c : Cell) : c.width ≤ 8 := by
  rw [Cell.width, typeWidth]
  split_ifs <;> decide

theorem Spaced.apart_head (h : Spaced pages pagesEnd (done ++ c :: rest)) : ∀ d ∈ done ++ rest, d.Apart c := by
  intro d hd
  rcases List.mem_append.1 hd with hd | hd
  · exact (List.pairwise_append.1 h.apart).2.2 d hd c List.mem_cons_self
  · exact ((List.pairwise_cons.1 (List.pairwise_append.1 h.apart).2.1).1 d hd).symm

/-- Moving one cell. -/
theorem Progress.fix (hspaced : Spaced pages pagesEnd (done ++ c :: rest))
    (hold : old + adjust = new ∨ old + adjust = new + 2 ^ 64)
    (hhigh : c.type = EFI_IMAGE_REL_BASED_HIGH → adjust % 2 ^ 16 = 0)
    (h : Progress content old new pages pagesEnd done (c :: rest) s) :
    Progress content old new pages pagesEnd (done ++ [c]) rest
      (s.fix c.width (typeAlignment c.type) (typeAmount adjust c.type) c.address) := by
  have hmem : c ∈ done ++ c :: rest := List.mem_append_right _ List.mem_cons_self
  have hdata : s.fixupData ≠ 0 := Nat.ne_of_gt (Nat.lt_of_lt_of_le hspaced.pos h.low)
  have hwidth := width_le c
  have hle := le_alignPointer s.fixupData (typeAlignment c.type)
  have halign : alignPointer s.fixupData (typeAlignment c.type) ≤ pages + 8 * done.length := by
    refine alignPointer_le ?_ hspaced.align h.high
    rw [typeAlignment]
    split_ifs
    · exact Or.inr (Or.inr rfl)
    · exact Or.inr (Or.inl rfl)
    · exact Or.inl rfl
  rw [State.fix, if_neg hdata]
  generalize alignPointer s.fixupData (typeAlignment c.type) = fixupData at *
  have hroom := hspaced.room
  rw [List.length_append, List.length_cons] at hroom
  have hlow := h.low
  -- a word outside the saved one and apart from the cell is as before
  have hkept : ∀ d : Cell, d.address + d.width ≤ pages ∨ pagesEnd ≤ d.address → d.Apart c → ∀ value value',
      wordAt (storeWord (storeWord s.memory c.width c.address value) c.width fixupData value') d.width d.address =
        wordAt s.memory d.width d.address := by
    intro d hd hapart value value'
    rw [wordAt_storeWord_outside (by omega), wordAt_storeWord_outside hapart]
  have hpages := fun d hd => hspaced.outside d hd
  refine ⟨?_, ?_, ?_, ?_, ?_⟩
  · intro d hd
    rcases List.mem_append.1 hd with hd | hd
    · have hall : d ∈ done ++ c :: rest := List.mem_append_left _ hd
      rw [hkept d (hpages d hall) (hspaced.apart_head d (List.mem_append_left _ hd))]
      exact h.moved d hd
    · obtain rfl : d = c := List.mem_singleton.1 hd
      rw [wordAt_storeWord_outside (by have := hpages d hmem; omega), wordAt_storeWord,
        h.unmoved d List.mem_cons_self]
      exact linkedValue_add hold (hspaced.supported d hmem) hhigh
  · intro d hd
    have hall : d ∈ done ++ c :: rest := List.mem_append_right _ (List.mem_cons_of_mem _ hd)
    rw [hkept d (hpages d hall) (hspaced.apart_head d (List.mem_append_right _ hd))]
    exact h.unmoved d (List.mem_cons_of_mem _ hd)
  · intro a ha hout
    rw [List.append_assoc, List.singleton_append] at ha
    have hc := ha c hmem
    rw [Cell.Covers] at hc
    dsimp only
    rw [storeWord_outside (by omega), storeWord_outside (by omega)]
    exact h.other a ha hout
  · dsimp only
    omega
  · dsimp only
    rw [List.length_append, List.length_singleton]
    omega

end Fix

/-! ### The table -/

/-- A range that no relocation reaches. -/
def Spare (pages pagesEnd : Nat) (cells : List Cell) (low high : Nat) : Prop :=
  (∀ c ∈ cells, c.address + c.width ≤ low ∨ high ≤ c.address) ∧ (high ≤ pages ∨ pagesEnd ≤ low)

section Table

variable {content : Memory} {old new adjust pages pagesEnd low high fixupBase : Nat} {done cells later : List Cell}
  {s : State}

theorem Spare.mono {low' high' : Nat} (h : Spare pages pagesEnd cells low high) (hlow : low ≤ low')
    (hhigh : high' ≤ high) : Spare pages pagesEnd cells low' high' := by
  refine ⟨fun c hc => ?_, ?_⟩
  · have := h.1 c hc
    omega
  · have := h.2
    omega

theorem Progress.read {width : Nat} (h : Progress content old new pages pagesEnd done later s)
    (hspare : Spare pages pagesEnd (done ++ later) low (low + width)) :
    wordAt s.memory width low = wordAt content width low := by
  apply wordAt_congr
  intro i hi
  refine h.other (low + i) (fun c hc hcovers => ?_) ?_
  · have := hspare.1 c hc
    rw [Cell.Covers] at hcovers
    omega
  · have := hspare.2
    omega

/-- What the relocations of a record fix, the record fixes. -/
theorem Progress.record {relocs : List Nat} (hold : old + adjust = new ∨ old + adjust = new + 2 ^ 64)
    (hspaced : Spaced pages pagesEnd (done ++ (cells ++ later)))
    (hcells : cells.map (fun c => (c.address, c.type)) = relocs.filterMap (target fixupBase))
    (hhigh : ∀ c ∈ cells, c.type = EFI_IMAGE_REL_BASED_HIGH → adjust % 2 ^ 16 = 0)
    (hspare : Spare pages pagesEnd (done ++ (cells ++ later)) low (low + 2 * relocs.length))
    (hholds : HoldsRelocs content low relocs) (h : Progress content old new pages pagesEnd done (cells ++ later) s) :
    ∃ s', relocateRecord adjust fixupBase relocs.length low s = some s' ∧
      Progress content old new pages pagesEnd (done ++ cells) later s' := by
  induction relocs generalizing low done cells s with
  | nil =>
      obtain rfl : cells = [] := List.map_eq_nil_iff.1 hcells
      rw [List.append_nil]
      exact ⟨s, rfl, h⟩
  | cons reloc relocs ih =>
      obtain ⟨hreloc, hrelocs⟩ := hholds
      rw [List.length_cons] at hspare
      have hread : wordAt s.memory 2 low = reloc :=
        (h.read (hspare.mono (Nat.le_refl _) (by omega))).trans hreloc
      replace hspare : Spare pages pagesEnd (done ++ (cells ++ later)) (low + 2) (low + 2 + 2 * relocs.length) :=
        hspare.mono (Nat.le_add_right ..) (by omega)
      rw [List.length_cons, relocateRecord, hread]
      by_cases habsolute : reloc / 4096 = EFI_IMAGE_REL_BASED_ABSOLUTE
      · rw [List.filterMap_cons_none (by rw [target, if_pos habsolute])] at hcells
        rw [relocate, if_pos habsolute, Option.bind_some]
        exact ih hspaced hcells hhigh hspare hrelocs h
      · rw [List.filterMap_cons_some (by rw [target, if_neg habsolute])] at hcells
        obtain ⟨c, cells', rfl, hc, hcells'⟩ := List.map_eq_cons_iff.1 hcells
        obtain ⟨haddress, htype⟩ := Prod.mk.inj hc
        rw [List.cons_append] at hspaced hspare h
        have hsupported := hspaced.supported c (List.mem_append_right _ List.mem_cons_self)
        have hassoc : done ++ c :: (cells' ++ later) = done ++ [c] ++ (cells' ++ later) := by
          rw [List.append_assoc, List.singleton_append]
        have hfixed := h.fix hspaced hold (hhigh c List.mem_cons_self)
        rw [hassoc] at hspaced hspare
        rw [relocate_supported hsupported haddress.symm htype.symm, Option.bind_some]
        obtain ⟨s', hrun, hprogress⟩ := ih hspaced hcells' (fun d hd => hhigh d (List.mem_cons_of_mem _ hd))
          hspare hrelocs hfixed
        rw [List.append_assoc, List.singleton_append] at hprogress
        exact ⟨s', hrun, hprogress⟩

theorem relocBaseOf (image : LoadedImage) {address : Nat} (heof : image.imageEof < 2 ^ 64)
    (h : image.imageBase + address ≤ image.imageEof) :
    efiLdrPeCoffImageAddress image address = image.imageBase + address := by
  rw [efiLdrPeCoffImageAddress, Nat.mod_eq_of_lt (Nat.lt_of_le_of_lt h heof)]
  exact if_neg (by omega)

/-- What the relocations of the table fix, the records fix one after the other. -/
theorem Progress.records {image : LoadedImage} {records : List Record} {rounds : Nat}
    (hold : old + adjust = new ∨ old + adjust = new + 2 ^ 64) (heof : image.imageEof < 2 ^ 64)
    (hrecords : ∀ r ∈ records, image.imageBase + r.virtualAddress ≤ image.imageEof) (hbase : image.imageBase ≤ low)
    (hend : low + tableSize records ≤ image.imageEof) (hspaced : Spaced pages pagesEnd (done ++ cells))
    (hcells : cells.map (fun c => (c.address, c.type)) = records.flatMap (Record.targets image.imageBase))
    (hhigh : ∀ c ∈ cells, c.type = EFI_IMAGE_REL_BASED_HIGH → adjust % 2 ^ 16 = 0)
    (hspare : Spare pages pagesEnd (done ++ cells) low (low + tableSize records))
    (hholds : HoldsTable content low records) (hrounds : records.length < rounds) (h : Progress content old new pages pagesEnd done cells s) :
    ∃ s', relocateRecords image adjust (low + tableSize records) rounds low s = .success s' ∧
      Progress content old new pages pagesEnd (done ++ cells) [] s' := by
  induction records generalizing low done cells s rounds with
  | nil =>
      obtain rfl : cells = [] := List.map_eq_nil_iff.1 hcells
      obtain ⟨rounds, rfl⟩ := Nat.exists_eq_succ_of_ne_zero (Nat.ne_of_gt hrounds)
      have hempty : low + tableSize [] = low := rfl
      rw [hempty, relocateRecords, if_pos (Nat.le_refl low), List.append_nil]
      exact ⟨s, rfl, h⟩
  | cons r records ih =>
      obtain ⟨rounds, rfl⟩ := Nat.exists_eq_succ_of_ne_zero (Nat.ne_of_gt (Nat.zero_lt_of_lt hrounds))
      obtain ⟨haddress, hsize, hrelocs, hholds⟩ := hholds
      obtain ⟨hr, hrecords⟩ := List.forall_mem_cons.1 hrecords
      have htable : tableSize (r :: records) = r.sizeOfBlock + tableSize records := rfl
      have hblock : r.sizeOfBlock = 8 + 2 * r.relocs.length := rfl
      rw [htable] at hend hspare ⊢
      rw [List.flatMap_cons] at hcells
      obtain ⟨first, later, rfl, hfirst, hlater⟩ := List.map_eq_append_iff.1 hcells
      have hread := (h.read (hspare.mono (Nat.le_refl low) (by omega))).trans haddress
      have hread' := (h.read (hspare.mono (Nat.le_add_right low 4) (by omega))).trans hsize
      obtain ⟨s', hrun, hprogress⟩ := h.record hold hspaced hfirst (fun c hc => hhigh c (List.mem_append_left _ hc))
        (hspare.mono (Nat.le_add_right low 8) (by omega)) hrelocs
      rw [← List.append_assoc] at hspaced hspare
      obtain ⟨s'', hruns, hprogress'⟩ := ih hrecords (by omega) (by omega) hspaced hlater
        (fun c hc => hhigh c (List.mem_append_right _ hc)) (hspare.mono (Nat.le_add_right ..) (by omega)) hholds
        (Nat.lt_of_succ_lt_succ hrounds) hprogress
      rw [List.append_assoc] at hprogress'
      have hcount : (low + r.sizeOfBlock - (low + 8) + 1) / 2 = r.relocs.length := by omega
      refine ⟨s'', ?_, hprogress'⟩
      rw [relocateRecords, if_neg (by omega), hread, hread', relocBaseOf image heof hr]
      dsimp only
      rw [if_neg (by omega), hcount, hrun]
      dsimp only
      rw [← Nat.add_assoc]
      exact hruns

end Table

/-! ### The image -/

/-- An image with a table of its relocations, which names the cells, and pages outside of it. -/
structure Relocatable (content : Memory) (image : LoadedImage) (virtualAddress size pages : Nat) (records : List Record)
    (cells : List Cell) : Prop where
  imageEof : image.imageEof < 2 ^ 64
  inside : ∀ r ∈ records, image.imageBase + r.virtualAddress ≤ image.imageEof
  directory : image.imageBase + virtualAddress + size ≤ image.imageEof
  address : 0 < image.imageBase + virtualAddress
  narrow : virtualAddress + size < 2 ^ 32
  table : tableSize records = size
  holds : HoldsTable content (image.imageBase + virtualAddress) records
  targets : cells.map (fun c => (c.address, c.type)) = records.flatMap (Record.targets image.imageBase)
  supported : ∀ c ∈ cells, c.Supported
  apart : cells.Pairwise Cell.Apart
  outside : ∀ c ∈ cells, c.address + c.width ≤ pages ∨ pages + noFixupPages size * 4096 ≤ c.address
  spare : Spare pages (pages + noFixupPages size * 4096) cells (image.imageBase + virtualAddress)
    (image.imageBase + virtualAddress + size)
  align : pages % 4096 = 0
  pos : 0 < pages

theorem le_sizeToPages (size : Nat) : size ≤ sizeToPages size * 4096 := by
  rw [sizeToPages]
  split_ifs <;> omega

theorem length_targets_le (imageBase : Nat) (records : List Record) :
    2 * (records.flatMap (Record.targets imageBase)).length + 8 * records.length ≤ tableSize records := by
  induction records with
  | nil => exact Nat.le_refl 0
  | cons r records ih =>
      have hsize : tableSize (r :: records) = 8 + 2 * r.relocs.length + tableSize records := rfl
      have hfirst : (r.targets imageBase).length ≤ r.relocs.length := List.length_filterMap_le _ _
      rw [List.flatMap_cons, List.length_append, List.length_cons, hsize]
      omega

section Image

variable {content memory : Memory} {image : LoadedImage} {virtualAddress size pages linkBase : Nat}
  {records : List Record} {cells : List Cell}

/-- Each relocation takes two bytes of the table, and no more than eight of the pages. -/
theorem Relocatable.spaced (h : Relocatable content image virtualAddress size pages records cells) :
    Spaced pages (pages + noFixupPages size * 4096) cells := by
  refine ⟨h.supported, h.apart, h.outside, ?_, h.pos, ?_⟩
  · have := h.align
    omega
  · have hpages : size / 2 * 8 ≤ noFixupPages size * 4096 := le_sizeToPages _
    have hcount := length_targets_le image.imageBase records
    rw [← h.targets, List.length_map, h.table] at hcount
    omega

/-- The relocations turn an image that is linked for one address into the image that is linked for the address where it
lies, and they save no more than the pages hold. -/
theorem efiLdrPeCoffLoadPeRelocate_linked
    (h : Relocatable content image virtualAddress size pages records cells) (hbase : linkBase < 2 ^ 64)
    (hhigh : ∀ c ∈ cells, c.type = EFI_IMAGE_REL_BASED_HIGH → image.imageBase % 2 ^ 16 = linkBase % 2 ^ 16)
    (hlinked : Linked content linkBase pages (pages + noFixupPages size * 4096) cells memory) :
    ∃ s, efiLdrPeCoffLoadPeRelocate image virtualAddress size ((image.imageBase + 2 ^ 64 - linkBase) % 2 ^ 64) pages
        memory = .success s ∧
      Linked content image.imageBase pages (pages + noFixupPages size * 4096) cells s.memory ∧
      s.fixupData ≤ pages + noFixupPages size * 4096 := by
  have hspaced := h.spaced
  have heof := h.imageEof
  have hdirectory := h.directory
  have hprogress : Progress content linkBase image.imageBase pages (pages + noFixupPages size * 4096) [] cells
      ⟨memory, pages⟩ :=
    ⟨fun c hc => absurd hc List.not_mem_nil, hlinked.cell, hlinked.other, Nat.le_refl _, Nat.le_refl _⟩
  have hcount := length_targets_le image.imageBase records
  rw [h.table] at hcount
  have hold : linkBase + (image.imageBase + 2 ^ 64 - linkBase) % 2 ^ 64 = image.imageBase ∨
      linkBase + (image.imageBase + 2 ^ 64 - linkBase) % 2 ^ 64 = image.imageBase + 2 ^ 64 := by
    omega
  obtain ⟨s, hrun, hdone⟩ := hprogress.records hold heof h.inside (by omega)
    (by rw [h.table]; exact hdirectory) hspaced h.targets (fun c hc htype => by have := hhigh c hc htype; omega)
    (by rw [h.table]; exact h.spare) h.holds (show records.length < size + 1 by omega)
  rw [h.table] at hrun
  rw [List.nil_append] at hdone
  refine ⟨s, ?_, ⟨hdone.moved, fun a ha => hdone.other a (by rwa [List.append_nil])⟩,
    Nat.le_trans hdone.high hspaced.room⟩
  have hnarrow := h.narrow
  rw [efiLdrPeCoffLoadPeRelocate, Nat.mod_eq_of_lt hnarrow, relocBaseOf image heof (by omega),
    relocBaseOf image heof (by omega), ← Nat.add_assoc]
  have haddress := h.address
  have hpos := h.pos
  rw [if_neg (by omega), if_neg (by omega), Nat.add_sub_cancel_left]
  exact hrun

end Image

/-! The table below has one record, with a relocation of eight bytes and one that fills it up. -/

def sampleContent : Memory := fun a =>
  if a = 0x100104 then 12 else if a = 0x100108 then 0x10 else if a = 0x100109 then 0xA0 else 0

def sampleCell : Cell := ⟨0x100010, EFI_IMAGE_REL_BASED_DIR64, 0x20⟩

theorem sampleContent_relocatable : Relocatable sampleContent ⟨0x100000, 0x100FFF⟩ 0x100 12 0x200000 [⟨0, [0xA010, 0]⟩]
    [sampleCell] where
  imageEof := by decide
  inside := by decide
  directory := by decide
  address := by decide
  narrow := by decide
  table := rfl
  holds := ⟨rfl, rfl, ⟨rfl, rfl, trivial⟩, trivial⟩
  targets := rfl
  supported := by
    intro c hc
    obtain rfl : c = sampleCell := List.mem_singleton.1 hc
    exact Or.inr (Or.inr (Or.inr rfl))
  apart := List.pairwise_singleton _ _
  outside := by decide
  spare := ⟨by decide, by decide⟩
  align := by decide
  pos := by decide

theorem sampleContent_linked : Linked sampleContent 0x10000 0x200000 (0x200000 + noFixupPages 12 * 4096) [sampleCell]
    (storeWord sampleContent 8 0x100010 0x10020) where
  cell := by
    intro c hc
    obtain rfl : c = sampleCell := List.mem_singleton.1 hc
    exact wordAt_storeWord
  other := by
    intro a ha _
    have hout := ha sampleCell List.mem_cons_self
    rw [Cell.Covers] at hout
    refine storeWord_outside ?_
    change ¬(0x100010 ≤ a ∧ a < 0x100010 + 8) at hout
    omega

theorem sampleContent_moved : ∃ s, efiLdrPeCoffLoadPeRelocate ⟨0x100000, 0x100FFF⟩ 0x100 12
    ((0x100000 + 2 ^ 64 - 0x10000) % 2 ^ 64) 0x200000 (storeWord sampleContent 8 0x100010 0x10020) = .success s ∧
      Linked sampleContent 0x100000 0x200000 (0x200000 + noFixupPages 12 * 4096) [sampleCell] s.memory ∧
      s.fixupData ≤ 0x200000 + noFixupPages 12 * 4096 :=
  efiLdrPeCoffLoadPeRelocate_linked sampleContent_relocatable (by decide) (by decide) sampleContent_linked

end BareBoot.PeImage
