import BareBoot.FindSpace

/-! The memory that `EfiLoader` hands over. It asks for pages for the firmware volume, for the images of DxeIpl and
DxeMain and for the fixups of each, and takes it that the fixups lie just below their image and DxeMain just below
DxeIpl. -/

namespace BareBoot.MemoryMap

open Regions

/-! ### Requests from one descriptor -/

/-- The descriptor that `FindSpace` takes even a single page from. -/
structure Top (d : Descriptor) (desc : List Descriptor) : Prop where
  split : ∃ front back, desc = front ++ d :: back ∧ ∀ e ∈ front, ¬e.Halts
  highest : ∀ e ∈ scanned desc, e.Suitable 1 → e.physicalStart ≤ d.physicalStart
  type : d.type = .conventionalMemory
  low : 0x100000 ≤ d.physicalStart
  limit : d.stop ≤ 0x100000000

theorem mem_scanned_append {desc : List Descriptor} {d e : Descriptor} (h : e ∈ scanned (desc ++ [d])) :
    e ∈ scanned desc ∨ e = d := by
  induction desc with
  | nil =>
      rw [List.nil_append, scanned_cons] at h
      split_ifs at h
      · cases h
      · exact Or.inr (List.mem_singleton.1 h)
  | cons f desc ih =>
      rw [List.cons_append, scanned_cons] at h
      rw [scanned_cons]
      split_ifs at h ⊢
      · cases h
      · rcases List.mem_cons.1 h with rfl | h
        · exact Or.inl List.mem_cons_self
        · exact (ih h).imp_left (List.mem_cons_of_mem _)

theorem mem_scanned_of_split {front back : List Descriptor} {d : Descriptor} (hfront : ∀ e ∈ front, ¬e.Halts)
    (hd : ¬d.Halts) : d ∈ scanned (front ++ d :: back) := by
  rw [scanned_append hfront, scanned_cons, if_neg hd]
  exact List.mem_append_right _ List.mem_cons_self

theorem eq_of_start {desc : List Descriptor} (hgood : ∀ d ∈ desc, d.Good) (hsep : Separate (regions desc)) {d e : Descriptor}
    (hd : d ∈ desc) (he : e ∈ desc) (h : d.physicalStart = e.physicalStart) : d = e := by
  by_contra hne
  have hpairwise : desc.Pairwise fun d e => d.region.Apart e.region := List.pairwise_map.1 hsep
  have : Std.Symm fun d e : Descriptor => d.region.Apart e.region := ⟨fun _ _ hapart => hapart.symm⟩
  have hapart : d.region.Apart e.region := hpairwise.forall hd he hne
  have hpages := (hgood d hd).2.1
  have hpages' := (hgood e he).2.1
  rw [Region.Apart, Region.stop, Region.stop, Descriptor.region, Descriptor.region] at hapart
  dsimp only at hapart
  omega

def Descriptor.without (noPages : Nat) (d : Descriptor) : Descriptor :=
  { d with numberOfPages := d.numberOfPages - noPages }

/-- A table of which pages can be taken from the top of `d`. -/
structure Ready (d : Descriptor) (desc : List Descriptor) : Prop where
  good : ∀ e ∈ desc, e.Good
  separate : Separate (regions desc)
  top : Top d desc

def RuntimeServices (type : MemoryType) : Prop := type = .runtimeServicesCode ∨ type = .runtimeServicesData

/-- The addresses from `base` to `top` became runtime services, and no other ones changed. -/
def Given (base top : Nat) (before after : Nat → Option (MemoryType × Nat)) : Prop :=
  ∀ a, if base ≤ a ∧ a < top then ∃ kind, after a = some kind ∧ RuntimeServices kind.1 else after a = before a

theorem Given.trans {base middle top : Nat} {before between after : Nat → Option (MemoryType × Nat)}
    (h : Given middle top before between) (h' : Given base middle between after) (hbase : base ≤ middle)
    (hmiddle : middle ≤ top) : Given base top before after := by
  intro a
  have ha := h a
  have ha' := h' a
  by_cases hlow : base ≤ a ∧ a < middle
  · rw [if_pos (by omega)]
    rwa [if_pos hlow] at ha'
  · rw [if_neg hlow] at ha'
    rw [ha']
    by_cases hhigh : middle ≤ a ∧ a < top
    · rw [if_pos (by omega)]
      rwa [if_pos hhigh] at ha
    · rw [if_neg (by omega)]
      rwa [if_neg hhigh] at ha

section Stack

variable {desc : List Descriptor} {d : Descriptor} {type : MemoryType} {noPages attr : Nat}

theorem Ready.mem (h : Ready d desc) : d ∈ desc := by
  obtain ⟨front, back, hdesc, -⟩ := h.top.split
  rw [hdesc]
  exact List.mem_append_right _ List.mem_cons_self

theorem Ready.stop_eq (h : Ready d desc) : d.stop = d.physicalStart + d.numberOfPages * 4096 := (h.good d h.mem).stop_eq

theorem Ready.stop_without (h : Ready d desc) (hless : noPages < d.numberOfPages) :
    (d.without noPages).stop = d.stop - noPages * 4096 := by
  have hrest : noPages * 4096 + (d.numberOfPages - noPages) * 4096 = d.numberOfPages * 4096 := by
    rw [← Nat.add_mul, Nat.add_sub_cancel' (Nat.le_of_lt hless)]
  have hgood : (d.without noPages).Good := by
    obtain ⟨halign, -, hlimit⟩ := h.good d h.mem
    refine ⟨halign, Nat.sub_pos_of_lt hless, Nat.lt_of_le_of_lt ?_ hlimit⟩
    dsimp only [Descriptor.without]
    omega
  rw [hgood.stop_eq, h.stop_eq]
  dsimp only [Descriptor.without]
  omega

/-- `FindSpace` takes the pages from the top of the descriptor. -/
theorem Ready.found (h : Ready d desc) (type : MemoryType) (attr : Nat) (hpages : 0 < noPages) (hless : noPages < d.numberOfPages) :
    ∃ front back, desc = front ++ d :: back ∧ (∀ e ∈ front, ¬e.Halts) ∧
      findSpace noPages type attr desc = (d.stop - noPages * 4096,
        front ++ d.without noPages :: (back ++ [⟨type, d.stop - noPages * 4096, 0, noPages, attr⟩])) := by
  have hd := h.mem
  have hstop := h.stop_eq
  obtain ⟨hgood, hsep, ⟨⟨front, back, hdesc, hfront⟩, hhighest, hfree, hlow, hlimit⟩⟩ := h
  have hsuitable : ∀ n ≤ d.numberOfPages, d.Suitable n := fun n hn => ⟨hfree, hn, by omega, hlimit⟩
  have hscanned : d ∈ scanned desc := by
    rw [hdesc]
    exact mem_scanned_of_split hfront (hsuitable 0 (Nat.zero_le _)).not_halts
  rcases findSpace_spec noPages type attr hgood with
    ⟨-, hnone⟩ | ⟨front', e, back', hdesc', hfront', he, hpos, hhighest', hfind⟩
  · have hzero := hnone d hscanned (hsuitable _ (Nat.le_of_lt hless))
    omega
  have hmem : e ∈ desc := by
    rw [hdesc']
    exact List.mem_append_right _ List.mem_cons_self
  have hscanned' : e ∈ scanned desc := by
    rw [hdesc']
    exact mem_scanned_of_split hfront' he.not_halts
  have hle : e.physicalStart ≤ d.physicalStart := hhighest e hscanned' ⟨he.1, Nat.le_trans hpages he.2.1, he.2.2⟩
  have hge : d.physicalStart ≤ e.physicalStart := hhighest' d hscanned (hsuitable _ (Nat.le_of_lt hless))
  obtain rfl : e = d := eq_of_start hgood hsep hmem hd (Nat.le_antisymm hle hge)
  rw [if_neg (Nat.ne_of_gt hless)] at hfind
  exact ⟨front', back', hdesc', hfront', hfind.trans (by rw [List.append_assoc]; rfl)⟩

/-- What is left of the descriptor is ready for the next request. -/
theorem Ready.findSpace (h : Ready d desc) (attr : Nat) (htype : RuntimeServices type) (hpages : 0 < noPages)
    (hless : noPages < d.numberOfPages) :
    (findSpace noPages type attr desc).1 = d.stop - noPages * 4096 ∧ d.stop - noPages * 4096 ≠ 0 ∧
      Ready (d.without noPages) (MemoryMap.findSpace noPages type attr desc).2 ∧
      Given (d.stop - noPages * 4096) d.stop (kindAt (regions desc))
        (kindAt (regions (MemoryMap.findSpace noPages type attr desc).2)) := by
  have hstop := h.stop_eq
  have hstop' := h.stop_without hless
  have hconventional : type ≠ .conventionalMemory := by
    rintro rfl
    rcases htype with htype | htype <;> cases htype
  obtain ⟨front, back, hdesc, hfront, hfind⟩ := h.found type attr hpages hless
  obtain ⟨hgood, hsep, ⟨-, hhighest, hfree, hlow, hlimit⟩⟩ := h
  have hsize : noPages * 4096 ≤ d.numberOfPages * 4096 := Nat.mul_le_mul_right _ (Nat.le_of_lt hless)
  have hbase : d.stop - noPages * 4096 ≠ 0 := by omega
  have hfound : (MemoryMap.findSpace noPages type attr desc).1 ≠ 0 := by rwa [hfind]
  obtain ⟨htakes, hgood', -⟩ := findSpace_takes hgood hpages hsep hconventional hfound
  refine ⟨by rw [hfind], hbase, ⟨hgood', htakes.placed.separate hsep, ?_⟩, fun a => ?_⟩
  · have hnot : ∀ e : Descriptor, e.type = .conventionalMemory → ¬e.Halts := by
      rintro e he ⟨-, htype | htype⟩ <;> exact absurd (he.symm.trans htype) (by decide)
    rw [hdesc, scanned_append hfront, scanned_cons, if_neg (hnot d hfree)] at hhighest
    rw [hfind]
    refine ⟨⟨front, _, rfl, hfront⟩, fun e he hsuit => ?_, hfree, hlow, ?_⟩
    · dsimp only at he
      rw [scanned_append hfront, scanned_cons, if_neg (hnot (d.without noPages) hfree)] at he
      rcases List.mem_append.1 he with he | he
      · exact hhighest e (List.mem_append_left _ he) hsuit
      · rcases List.mem_cons.1 he with rfl | he
        · exact Nat.le_refl _
        · rcases mem_scanned_append he with he | rfl
          · exact hhighest e (List.mem_append_right _ (List.mem_cons_of_mem _ he)) hsuit
          · exact absurd hsuit.1 hconventional
    · rw [hstop']
      omega
  · rw [htakes.placed.kindAt_eq hsep, override, hfind]
    have hcovers : (target type (d.stop - noPages * 4096) noPages attr).Covers a ↔
        d.stop - noPages * 4096 ≤ a ∧ a < d.stop := by
      have hend : d.stop - noPages * 4096 + noPages * 4096 = d.stop := by omega
      rw [Region.Covers, Region.stop, target, hend]
    by_cases ha : d.stop - noPages * 4096 ≤ a ∧ a < d.stop
    · rw [if_pos ha, if_pos (hcovers.2 ha)]
      exact ⟨_, rfl, htype⟩
    · rw [if_neg ha, if_neg fun h => ha (hcovers.1 h)]

end Stack

/-! ### The images -/

/-- The fields of `EFILDR_LOADED_IMAGE` that the loader uses. -/
structure LoadedImage where
  imageBasePage : Nat
  noPages : Nat
  deriving DecidableEq, Repr

/-- The pages of `EfiLdrPeCoffLoadPeImage`: for the image, and for the fixups if it has to be relocated. They are counted as
part of the image, as if they lay just below it. -/
def efiLdrPeCoffLoadPeImage (noPages : Nat) (noFixupPages : Option Nat) (desc : List Descriptor) :
    Option (LoadedImage × List Descriptor) :=
  let image := findSpace noPages .runtimeServicesCode EFI_MEMORY_WB desc
  if image.1 = 0 then none
  else
    match noFixupPages with
    | none => some (⟨image.1, noPages⟩, image.2)
    | some fixupPages =>
        let fixups := findSpace fixupPages .runtimeServicesData EFI_MEMORY_WB image.2
        if fixups.1 = 0 then none
        else some (⟨u64 (image.1 + 2 ^ 64 - u64 (fixupPages * 4096)), noPages + fixupPages⟩, fixups.2)

structure Handoff where
  memDesc : List Descriptor
  bfvBase : Nat
  bfvSize : Nat
  dxeIplImageBase : Nat
  dxeIplImageSize : Nat
  dxeCoreImageBase : Nat
  dxeCoreImageSize : Nat

/-- The requests of `EfiLoader` and what it hands over, or `none` where it hangs. -/
def efiLoader (bfvPageNumber : Nat) (dxeIpl dxeCore : Nat × Option Nat) (desc : List Descriptor) : Option Handoff :=
  let bfv := findSpace bfvPageNumber .runtimeServicesData EFI_MEMORY_WB desc
  if bfv.1 = 0 then none
  else
    match efiLdrPeCoffLoadPeImage dxeIpl.1 dxeIpl.2 bfv.2 with
    | none => none
    | some (dxeIplImage, desc) =>
        match efiLdrPeCoffLoadPeImage dxeCore.1 dxeCore.2 desc with
        | none => none
        | some (dxeCoreImage, desc) =>
            some ⟨desc, bfv.1, bfvPageNumber * 4096, dxeIplImage.imageBasePage, dxeIplImage.noPages * 4096,
              dxeCoreImage.imageBasePage, dxeCoreImage.noPages * 4096⟩

/-- All pages of an image. -/
def imagePages (image : Nat × Option Nat) : Nat := image.1 + image.2.getD 0

/-- The image and its fixups have pages. -/
def ImageGood (image : Nat × Option Nat) : Prop := 0 < image.1 ∧ ∀ fixupPages, image.2 = some fixupPages → 0 < fixupPages

section Images

variable {desc : List Descriptor} {d : Descriptor} {image : Nat × Option Nat}

theorem without_without (d : Descriptor) (n m : Nat) : (d.without n).without m = d.without (n + m) := by
  rw [Descriptor.without, Descriptor.without, Descriptor.without]
  congr 1
  dsimp only
  omega

theorem Ready.stop_lt (h : Ready d desc) : d.stop < 2 ^ 64 := by
  have hlimit := h.top.limit
  omega

/-- The image and its fixups take the pages at the top of the descriptor. -/
theorem Ready.loadPeImage (h : Ready d desc) (himage : ImageGood image) (hless : imagePages image < d.numberOfPages) :
    ∃ after, efiLdrPeCoffLoadPeImage image.1 image.2 desc =
        some (⟨d.stop - imagePages image * 4096, imagePages image⟩, after) ∧
      Ready (d.without (imagePages image)) after ∧
      Given (d.stop - imagePages image * 4096) d.stop (kindAt (regions desc)) (kindAt (regions after)) := by
  obtain ⟨noPages, noFixupPages⟩ := image
  obtain ⟨hpages, hfixups⟩ := himage
  have hfirst : noPages < d.numberOfPages := Nat.lt_of_le_of_lt (Nat.le_add_right ..) hless
  obtain ⟨hbase, hzero, hready, hgiven⟩ := h.findSpace EFI_MEMORY_WB (Or.inl rfl) hpages hfirst
  rw [efiLdrPeCoffLoadPeImage.eq_def]
  dsimp only
  rw [if_neg (hbase ▸ hzero)]
  cases noFixupPages with
  | none => exact ⟨_, by rw [hbase]; rfl, hready, hgiven⟩
  | some fixupPages =>
      have hpos : 0 < fixupPages := hfixups fixupPages rfl
      have htotal : noPages + fixupPages < d.numberOfPages := hless
      have hrest : fixupPages < (d.without noPages).numberOfPages := Nat.lt_sub_of_add_lt (by omega)
      obtain ⟨hbase', hzero', hready', hgiven'⟩ := hready.findSpace EFI_MEMORY_WB (Or.inr rfl) hpos hrest
      rw [h.stop_without hfirst] at hbase' hzero' hgiven'
      rw [without_without] at hready'
      have hsum : imagePages (noPages, some fixupPages) = noPages + fixupPages := rfl
      have hbelow : d.stop - (noPages + fixupPages) * 4096 = d.stop - noPages * 4096 - fixupPages * 4096 := by
        rw [Nat.add_mul, Nat.sub_sub]
      have hlimit := h.stop_lt
      have hadjusted : u64 (d.stop - noPages * 4096 + 2 ^ 64 - u64 (fixupPages * 4096)) =
          d.stop - noPages * 4096 - fixupPages * 4096 := by
        rw [u64_of_lt (x := fixupPages * 4096) (by omega), u64]
        omega
      rw [hsum, hbelow]
      refine ⟨_, ?_, hready', hgiven.trans hgiven' (Nat.sub_le ..) (Nat.sub_le ..)⟩
      dsimp only
      rw [if_neg (hbase' ▸ hzero'), hbase, hadjusted]

end Images

/-- The firmware volume, DxeIpl and DxeMain with their fixups lie one below the other at the top of the highest free
descriptor, and the table is the one of the BIOS but for them. -/
theorem efiLoader_handoff {biosMemoryMap : List BiosEntry} (hsane : ∀ e ∈ biosMemoryMap, e.Sane)
    (hnested : Nested (fun kind => kind.1 = .conventionalMemory) (biosRegions biosMemoryMap)) {d : Descriptor}
    (htop : Top d (genMemoryMap biosMemoryMap [])) {bfvPageNumber : Nat} {dxeIpl dxeCore : Nat × Option Nat}
    (hbfv : 0 < bfvPageNumber) (hdxeIpl : ImageGood dxeIpl) (hdxeCore : ImageGood dxeCore)
    (hless : bfvPageNumber + imagePages dxeIpl + imagePages dxeCore < d.numberOfPages) :
    ∃ handoff, efiLoader bfvPageNumber dxeIpl dxeCore (genMemoryMap biosMemoryMap []) = some handoff ∧
      handoff.bfvBase + handoff.bfvSize = d.stop ∧
      handoff.dxeIplImageBase + handoff.dxeIplImageSize = handoff.bfvBase ∧
      handoff.dxeCoreImageBase + handoff.dxeCoreImageSize = handoff.dxeIplImageBase ∧
      d.physicalStart < handoff.dxeCoreImageBase ∧ handoff.bfvSize = bfvPageNumber * 4096 ∧
      (∀ e ∈ handoff.memDesc, e.Good) ∧ Separate (regions handoff.memDesc) ∧
      Given handoff.dxeCoreImageBase d.stop (biosKind biosMemoryMap) (kindAt (regions handoff.memDesc)) := by
  obtain ⟨hsep, hkind⟩ := genMemoryMap_kindAt hsane hnested
  obtain ⟨-, hgood⟩ := genMemoryMap_placed hsane hnested
  have hready : Ready d (genMemoryMap biosMemoryMap []) := ⟨hgood, hsep, htop⟩
  have hfirst : bfvPageNumber < d.numberOfPages := by omega
  obtain ⟨hbase, hzero, hready', hgiven⟩ := hready.findSpace EFI_MEMORY_WB (Or.inr rfl) hbfv hfirst
  obtain ⟨afterIpl, hipl, hreadyIpl, hgivenIpl⟩ := hready'.loadPeImage hdxeIpl (Nat.lt_sub_of_add_lt (by omega))
  rw [without_without] at hreadyIpl
  obtain ⟨afterCore, hcore, hreadyCore, hgivenCore⟩ := hreadyIpl.loadPeImage hdxeCore (Nat.lt_sub_of_add_lt (by omega))
  have hstop := hready.stop_eq
  have hstopIpl := hready.stop_without hfirst
  have hstopCore := hready.stop_without (show bfvPageNumber + imagePages dxeIpl < d.numberOfPages by omega)
  rw [hstopIpl] at hipl hgivenIpl
  rw [hstopCore] at hcore hgivenCore
  have hloader : efiLoader bfvPageNumber dxeIpl dxeCore (genMemoryMap biosMemoryMap []) =
      some ⟨afterCore, d.stop - bfvPageNumber * 4096, bfvPageNumber * 4096,
        d.stop - bfvPageNumber * 4096 - imagePages dxeIpl * 4096, imagePages dxeIpl * 4096,
        d.stop - (bfvPageNumber + imagePages dxeIpl) * 4096 - imagePages dxeCore * 4096, imagePages dxeCore * 4096⟩ := by
    rw [efiLoader, if_neg (hbase ▸ hzero), hipl]
    dsimp only
    rw [hcore, hbase]
  refine ⟨_, hloader, ?_, ?_, ?_, ?_, rfl, hreadyCore.good, hreadyCore.separate, ?_⟩
  · dsimp only
    omega
  · dsimp only
    omega
  · dsimp only
    omega
  · dsimp only
    omega
  · have hbios : biosKind biosMemoryMap = kindAt (regions (genMemoryMap biosMemoryMap [])) := (funext hkind).symm
    have hsum : d.stop - bfvPageNumber * 4096 - imagePages dxeIpl * 4096 =
        d.stop - (bfvPageNumber + imagePages dxeIpl) * 4096 := by
      rw [Nat.add_mul, Nat.sub_sub]
    rw [hsum] at hgivenIpl
    rw [hbios]
    exact (hgiven.trans hgivenIpl (by omega) (Nat.sub_le ..)).trans hgivenCore (Nat.sub_le ..) (Nat.sub_le ..)

/-- The memory above the reserved range. -/
def sampleTop : Descriptor := ⟨.conventionalMemory, 0x20200000, 0, 0x1FDF0, EFI_MEMORY_WB⟩

theorem sampleTop_top : Top sampleTop (genMemoryMap sampleBios []) := by
  have htable : genMemoryMap sampleBios [] =
      [⟨.conventionalMemory, 0, 0, 0x9F, 8⟩, ⟨.reservedMemoryType, 0x9F000, 0, 1, 1⟩,
        ⟨.reservedMemoryType, 0xF0000, 0, 0x10, 1⟩, ⟨.conventionalMemory, 0x100000, 0, 0x1FF00, 8⟩] ++
      sampleTop :: [⟨.reservedMemoryType, 0x20000000, 0, 0x200, 1⟩, ⟨.acpiReclaimMemory, 0x3FFF0000, 0, 0xB, 8⟩] := by
    decide
  rw [htable]
  exact ⟨⟨_, _, rfl, by decide⟩, by decide, rfl, by decide, by decide⟩

theorem imageGood_some {noPages fixupPages : Nat} (hpages : 0 < noPages) (hfixups : 0 < fixupPages) :
    ImageGood (noPages, some fixupPages) := by
  refine ⟨hpages, fun n hn => ?_⟩
  cases hn
  exact hfixups

theorem sampleBios_handoff : ∃ handoff,
    efiLoader 0x800 (9, some 1) (0x40, some 4) (genMemoryMap sampleBios []) = some handoff ∧
      handoff.bfvBase + handoff.bfvSize = sampleTop.stop ∧
      handoff.dxeIplImageBase + handoff.dxeIplImageSize = handoff.bfvBase ∧
      handoff.dxeCoreImageBase + handoff.dxeCoreImageSize = handoff.dxeIplImageBase ∧
      sampleTop.physicalStart < handoff.dxeCoreImageBase ∧ handoff.bfvSize = 0x800 * 4096 ∧
      (∀ e ∈ handoff.memDesc, e.Good) ∧ Separate (regions handoff.memDesc) ∧
      Given handoff.dxeCoreImageBase sampleTop.stop (biosKind sampleBios) (kindAt (regions handoff.memDesc)) :=
  efiLoader_handoff sampleBios_sane sampleBios_nested sampleTop_top (by decide) (imageGood_some (by decide) (by decide))
    (imageGood_some (by decide) (by decide)) (by decide)

end BareBoot.MemoryMap
