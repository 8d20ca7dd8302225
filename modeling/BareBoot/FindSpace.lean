import BareBoot.EfiMemoryMap

/-! `FindSpace` of the loader: pages from the end of the highest free descriptor below four gigabytes. -/

namespace BareBoot.MemoryMap

open Regions

/-- `MaxPhysicalStart`, `MaxNoPages` and the place of `CurrentMemoryDescriptor`. -/
structure Current where
  maxPhysicalStart : Nat
  maxNoPages : Nat
  index : Nat
  deriving DecidableEq, Repr

def Descriptor.stop (d : Descriptor) : Nat := u64 (d.physicalStart + u64 (d.numberOfPages * 4096))

/-- A free descriptor that is large enough, above the ones before and below four gigabytes. -/
def consider (noPages index : Nat) (d : Descriptor) (current : Current) : Current :=
  if d.type = .conventionalMemory ∧ noPages ≤ d.numberOfPages then
    if current.maxPhysicalStart < d.physicalStart then
      if d.stop ≤ 0x100000000 then ⟨d.physicalStart, d.numberOfPages, index⟩ else current
    else current
  else current

/-- The loop of `FindSpace` from the descriptor number `index` on. -/
def findCurrent (noPages : Nat) : Nat → List Descriptor → Current → Current
  | _, [], current => current
  | index, d :: desc, current =>
      if d.stop ≤ 0x100000 then findCurrent noPages (index + 1) desc current
      else
        let current := consider noPages index d current
        if d.type = .reservedMemoryType ∨ MemoryType.acpiReclaimMemory.ctorIdx ≤ d.type.ctorIdx then
          findCurrent noPages (index + 1) desc current
        else if d.type = .runtimeServicesCode ∨ d.type = .runtimeServicesData then current
        else findCurrent noPages (index + 1) desc current

def findSpace (noPages : Nat) (type : MemoryType) (attr : Nat) (desc : List Descriptor) : Nat × List Descriptor :=
  let current := findCurrent noPages 0 desc ⟨0, 0, 0⟩
  if current.maxPhysicalStart = 0 then (0, desc)
  else
    let base := u64 (current.maxPhysicalStart + u64 ((current.maxNoPages - noPages) * 4096))
    if current.maxNoPages ≠ noPages then
      (base, desc.modify current.index (fun d => { d with numberOfPages := current.maxNoPages - noPages }) ++
        [⟨type, base, 0, noPages, attr⟩])
    else (base, desc.modify current.index fun d => { d with type := type, attr := attr })

/-! ### The descriptor that is found -/

/-- The loop ends at a descriptor of runtime services. -/
def Descriptor.Halts (d : Descriptor) : Prop :=
  0x100000 < d.stop ∧ (d.type = .runtimeServicesCode ∨ d.type = .runtimeServicesData)

instance (d : Descriptor) : Decidable d.Halts := inferInstanceAs (Decidable (_ ∧ _))

/-- Free pages that end above one megabyte and not above four gigabytes. -/
def Descriptor.Suitable (noPages : Nat) (d : Descriptor) : Prop :=
  d.type = .conventionalMemory ∧ noPages ≤ d.numberOfPages ∧ 0x100000 < d.stop ∧ d.stop ≤ 0x100000000

instance (noPages : Nat) (d : Descriptor) : Decidable (d.Suitable noPages) := inferInstanceAs (Decidable (_ ∧ _))

variable {noPages : Nat}

theorem Descriptor.Suitable.not_halts {d : Descriptor} (h : d.Suitable noPages) : ¬d.Halts := by
  rintro ⟨-, htype | htype⟩ <;> exact absurd (h.1.symm.trans htype) (by decide)

theorem findCurrent_cons (index : Nat) (d : Descriptor) (desc : List Descriptor) (current : Current) :
    findCurrent noPages index (d :: desc) current =
      if d.Halts then current
      else findCurrent noPages (index + 1) desc
        (if d.Suitable noPages ∧ current.maxPhysicalStart < d.physicalStart then
          ⟨d.physicalStart, d.numberOfPages, index⟩ else current) := by
  rw [findCurrent]
  by_cases hlow : d.stop ≤ 0x100000
  · rw [if_pos hlow, if_neg fun h => Nat.not_lt_of_le hlow h.1, if_neg fun h => Nat.not_lt_of_le hlow h.1.2.2.1]
  rw [if_neg hlow]
  have hconsider : consider noPages index d current =
      if d.Suitable noPages ∧ current.maxPhysicalStart < d.physicalStart then
        ⟨d.physicalStart, d.numberOfPages, index⟩ else current := by
    have hstop : 0x100000 < d.stop := Nat.lt_of_not_le hlow
    by_cases hsuitable : d.Suitable noPages ∧ current.maxPhysicalStart < d.physicalStart
    · obtain ⟨⟨htype, hpages, -, hlimit⟩, hmax⟩ := id hsuitable
      rw [if_pos hsuitable, consider, if_pos ⟨htype, hpages⟩, if_pos hmax, if_pos hlimit]
    · rw [if_neg hsuitable, consider]
      split_ifs with hfree hmax hlimit
      · exact absurd ⟨⟨hfree.1, hfree.2, hstop, hlimit⟩, hmax⟩ hsuitable
      · rfl
      · rfl
      · rfl
  dsimp only
  by_cases hhalts : d.Halts
  · have hnot : ¬d.Suitable noPages := fun h => h.not_halts hhalts
    rw [if_pos hhalts, hconsider, if_neg (fun h : d.Suitable noPages ∧ _ => hnot h.1)]
    obtain ⟨-, htype⟩ := hhalts
    have hneither : ¬(d.type = .reservedMemoryType ∨ MemoryType.acpiReclaimMemory.ctorIdx ≤ d.type.ctorIdx) := by
      rcases htype with htype | htype <;> rw [htype] <;> decide
    rw [if_neg hneither, if_pos htype]
  · rw [if_neg hhalts, hconsider]
    have hruntime : ¬(d.type = .runtimeServicesCode ∨ d.type = .runtimeServicesData) := fun h =>
      hhalts ⟨Nat.lt_of_not_le hlow, h⟩
    rw [if_neg hruntime, ite_self]

/-- The descriptors the loop comes to. -/
def scanned (desc : List Descriptor) : List Descriptor := desc.takeWhile fun d => !decide d.Halts

theorem scanned_cons (d : Descriptor) (desc : List Descriptor) :
    scanned (d :: desc) = if d.Halts then [] else d :: scanned desc := by
  rw [scanned, List.takeWhile_cons]
  by_cases h : d.Halts
  · simp [h]
  · simp [h, scanned]

theorem scanned_append {front back : List Descriptor} (h : ∀ d ∈ front, ¬d.Halts) :
    scanned (front ++ back) = front ++ scanned back := by
  induction front with
  | nil => rfl
  | cons d front ih =>
      rw [List.forall_mem_cons] at h
      rw [List.cons_append, scanned_cons, if_neg h.1, ih h.2, List.cons_append]

/-- What the loop finds: no suitable descriptor is above it, and it is the first one there or what was found before. -/
theorem findCurrent_spec (noPages index : Nat) (desc : List Descriptor) (current : Current) :
    (∀ d ∈ scanned desc, d.Suitable noPages →
        d.physicalStart ≤ (findCurrent noPages index desc current).maxPhysicalStart) ∧
      current.maxPhysicalStart ≤ (findCurrent noPages index desc current).maxPhysicalStart ∧
      (findCurrent noPages index desc current = current ∨
        ∃ front d back, desc = front ++ d :: back ∧ (∀ e ∈ front, ¬e.Halts) ∧ d.Suitable noPages ∧
          current.maxPhysicalStart < d.physicalStart ∧
          findCurrent noPages index desc current = ⟨d.physicalStart, d.numberOfPages, index + front.length⟩) := by
  induction desc generalizing index current with
  | nil => exact ⟨fun d hd => absurd hd List.not_mem_nil, Nat.le_refl _, Or.inl rfl⟩
  | cons d desc ih =>
      rw [findCurrent_cons, scanned_cons]
      by_cases hhalts : d.Halts
      · rw [if_pos hhalts, if_pos hhalts]
        exact ⟨fun d hd => absurd hd List.not_mem_nil, Nat.le_refl _, Or.inl rfl⟩
      rw [if_neg hhalts, if_neg hhalts]
      by_cases hnew : d.Suitable noPages ∧ current.maxPhysicalStart < d.physicalStart
      · rw [if_pos hnew]
        obtain ⟨hhighest, hle, hfound⟩ := ih (index + 1) ⟨d.physicalStart, d.numberOfPages, index⟩
        refine ⟨List.forall_mem_cons.2 ⟨fun _ => hle, hhighest⟩, Nat.le_trans (Nat.le_of_lt hnew.2) hle, Or.inr ?_⟩
        rcases hfound with hfound | ⟨front, e, back, rfl, hfront, he, hmax, hfound⟩
        · exact ⟨[], d, desc, rfl, fun e he => absurd he List.not_mem_nil, hnew.1, hnew.2, hfound⟩
        · refine ⟨d :: front, e, back, rfl, List.forall_mem_cons.2 ⟨hhalts, hfront⟩, he, Nat.lt_trans hnew.2 hmax, ?_⟩
          rw [hfound, List.length_cons, Nat.add_assoc, Nat.add_comm 1]
      · rw [if_neg hnew]
        obtain ⟨hhighest, hle, hfound⟩ := ih (index + 1) current
        refine ⟨List.forall_mem_cons.2 ⟨fun hd => ?_, hhighest⟩, hle, ?_⟩
        · exact Nat.le_trans (Nat.le_of_not_lt fun hlt => hnew ⟨hd, hlt⟩) hle
        · rcases hfound with hfound | ⟨front, e, back, rfl, hfront, he, hmax, hfound⟩
          · exact Or.inl hfound
          · refine Or.inr ⟨d :: front, e, back, rfl, List.forall_mem_cons.2 ⟨hhalts, hfront⟩, he, hmax, ?_⟩
            rw [hfound, List.length_cons, Nat.add_assoc, Nat.add_comm 1]

theorem modify_append {α : Type} (front back : List α) (x : α) (f : α → α) :
    (front ++ x :: back).modify front.length f = front ++ f x :: back := by
  induction front with
  | nil => rfl
  | cons y front ih => exact congrArg (List.cons y) ih

section FindSpace

variable {type : MemoryType} {attr : Nat} {desc : List Descriptor}

theorem Descriptor.Good.stop_eq {d : Descriptor} (h : d.Good) : d.stop = d.physicalStart + d.numberOfPages * 4096 := by
  obtain ⟨-, -, hlimit⟩ := h
  rw [Descriptor.stop, u64_of_lt (x := d.numberOfPages * 4096) (by omega), u64_of_lt hlimit]

/-- The pages come from the end of the highest descriptor that is suitable, or there is none. -/
theorem findSpace_spec (noPages : Nat) (type : MemoryType) (attr : Nat) (hgood : ∀ d ∈ desc, d.Good) :
    (findSpace noPages type attr desc = (0, desc) ∧ ∀ d ∈ scanned desc, d.Suitable noPages → d.physicalStart = 0) ∨
      ∃ front d back, desc = front ++ d :: back ∧ (∀ e ∈ front, ¬e.Halts) ∧ d.Suitable noPages ∧ 0 < d.physicalStart ∧
        (∀ e ∈ scanned desc, e.Suitable noPages → e.physicalStart ≤ d.physicalStart) ∧
        findSpace noPages type attr desc =
          (d.stop - noPages * 4096,
            if d.numberOfPages = noPages then front ++ { d with type := type, attr := attr } :: back
            else front ++ { d with numberOfPages := d.numberOfPages - noPages } :: back ++
              [⟨type, d.stop - noPages * 4096, 0, noPages, attr⟩]) := by
  obtain ⟨hhighest, -, hfound⟩ := findCurrent_spec noPages 0 desc ⟨0, 0, 0⟩
  rcases hfound with hfound | ⟨front, d, back, rfl, hfront, hd, hmax, hfound⟩
  · left
    rw [hfound] at hhighest
    rw [findSpace, hfound]
    exact ⟨rfl, fun d hd hsuitable => Nat.eq_zero_of_le_zero (hhighest d hd hsuitable)⟩
  · right
    rw [hfound] at hhighest
    refine ⟨front, d, back, rfl, hfront, hd, hmax, hhighest, ?_⟩
    have hgoodDesc : d.Good := hgood d (List.mem_append_right _ List.mem_cons_self)
    have hbase : u64 (d.physicalStart + u64 ((d.numberOfPages - noPages) * 4096)) = d.stop - noPages * 4096 := by
      rw [hgoodDesc.stop_eq]
      obtain ⟨-, -, hlimit⟩ := hgoodDesc
      obtain ⟨-, hle, -, -⟩ := hd
      have hfewer : (d.numberOfPages - noPages) * 4096 ≤ d.numberOfPages * 4096 := Nat.mul_le_mul_right _ (Nat.sub_le ..)
      have hlast : d.physicalStart + (d.numberOfPages - noPages) * 4096 < 2 ^ 64 :=
        Nat.lt_of_le_of_lt (Nat.add_le_add_left hfewer _) hlimit
      rw [u64_of_lt (Nat.lt_of_le_of_lt (Nat.le_add_left ..) hlast), u64_of_lt hlast, Nat.sub_mul]
      exact (Nat.add_sub_assoc (Nat.mul_le_mul_right _ hle) _).symm
    rw [findSpace, hfound]
    dsimp only
    rw [if_neg (Nat.ne_of_gt hmax), hbase, Nat.zero_add, modify_append, modify_append]
    by_cases hall : d.numberOfPages = noPages
    · rw [if_neg (not_not.2 hall), if_pos hall]
    · rw [if_pos hall, if_neg hall]

theorem remainder_of_stop (type : MemoryType) (attr : Nat) {d : Descriptor} {base : Nat} (hbase : base + noPages * 4096 = d.region.stop) :
    d.region.remainder (target type base noPages attr) =
      if d.physicalStart < base then [⟨d.physicalStart, base - d.physicalStart, (d.type, d.attr)⟩] else [] := by
  have hback : ¬0 < (d.region.back (target type base noPages attr)).size := by
    rw [Region.back, target]
    dsimp only [Region.stop] at hbase ⊢
    omega
  have hfront : d.region.front (target type base noPages attr) =
      ⟨d.physicalStart, base - d.physicalStart, (d.type, d.attr)⟩ := rfl
  rw [Region.remainder, hfront, List.filter_cons, List.filter_cons_of_neg (by rwa [decide_eq_true_eq]), List.filter_nil]
  simp only [decide_eq_true_eq, Nat.sub_pos_iff_lt]

/-- `FindSpace` takes free pages below four gigabytes. -/
theorem findSpace_takes (hgood : ∀ d ∈ desc, d.Good) (hpages : 0 < noPages) (hsep : Separate (regions desc))
    (htype : type ≠ .conventionalMemory) (hfound : (findSpace noPages type attr desc).1 ≠ 0) :
    Takes (fun kind => kind.1 = .conventionalMemory) (regions desc)
        (target type (findSpace noPages type attr desc).1 noPages attr) (regions (findSpace noPages type attr desc).2) ∧
      (∀ d ∈ (findSpace noPages type attr desc).2, d.Good) ∧
      (findSpace noPages type attr desc).1 + noPages * 4096 ≤ 0x100000000 := by
  rcases findSpace_spec noPages type attr hgood with
    ⟨hnone, -⟩ | ⟨front, d, back, rfl, hfront, hsuitable, hpos, hhighest, hfind⟩
  · exact absurd (congrArg Prod.fst hnone) hfound
  obtain ⟨hconventional, hle, -, hlimit⟩ := hsuitable
  have hd : d.Good := hgood d (List.mem_append_right _ List.mem_cons_self)
  have hperm : (front ++ d :: back).Perm (d :: (front ++ back)) := List.perm_middle
  have hregions : (regions (front ++ d :: back)).Perm (d.region :: regions (front ++ back)) := hperm.map _
  have hothers : ∀ e ∈ front ++ back, e.Good := fun e he => hgood e (hperm.mem_iff.2 (List.mem_cons_of_mem _ he))
  have hstop : d.region.stop = d.stop := hd.stop_eq.symm
  have hsize : noPages * 4096 ≤ d.numberOfPages * 4096 := Nat.mul_le_mul_right _ hle
  have hend : d.stop - noPages * 4096 + noPages * 4096 = d.stop := by
    have hstopEq := hd.stop_eq
    omega
  have hstart : d.physicalStart ≤ d.stop - noPages * 4096 := by
    have hstopEq := hd.stop_eq
    omega
  have hwithin : (target type (d.stop - noPages * 4096) noPages attr).Within d.region :=
    ⟨hstart, Nat.le_of_eq (hend.trans hstop.symm)⟩
  have hremainder := remainder_of_stop type attr (hend.trans hstop.symm)
  have hbase : GoodRange (d.stop - noPages * 4096) noPages := by
    have hstopEq := hd.stop_eq
    obtain ⟨halign, -, hlimit'⟩ := hd
    refine ⟨by omega, hpages, ?_⟩
    rw [hend, hstopEq]
    exact hlimit'
  rw [hfind]
  dsimp only
  refine ⟨⟨?_, Nat.mul_pos hpages (by decide), fun a ha => ⟨_, (kindAt_eq_some_iff hsep).2
    ⟨d.region, List.mem_map_of_mem (hperm.mem_iff.2 List.mem_cons_self), hwithin.covers ha, rfl⟩, hconventional⟩, htype⟩,
    ?_, Nat.le_trans (Nat.le_of_eq hend) hlimit⟩
  · refine .carved d.region _ hregions hwithin ?_
    rw [hremainder]
    by_cases hall : d.numberOfPages = noPages
    · have hsame : d.stop - noPages * 4096 = d.physicalStart := by
        rw [hd.stop_eq, hall, Nat.add_sub_cancel]
      rw [if_pos hall, if_neg (by omega), hsame, List.nil_append, ← hall]
      exact List.Perm.map _ List.perm_middle
    · have hfewer : d.stop - noPages * 4096 - d.physicalStart = (d.numberOfPages - noPages) * 4096 := by
        rw [hd.stop_eq, Nat.sub_mul]
        omega
      have hless : d.physicalStart < d.stop - noPages * 4096 := by omega
      rw [if_neg hall, if_pos hless, hfewer]
      have hshift := perm_shift front back [] { d with numberOfPages := d.numberOfPages - noPages }
        (⟨type, d.stop - noPages * 4096, 0, noPages, attr⟩ : Descriptor)
      rw [List.append_nil] at hshift
      exact hshift.map _
  · intro e he
    by_cases hall : d.numberOfPages = noPages
    · rw [if_pos hall] at he
      rcases List.mem_cons.1 (List.perm_middle.mem_iff.1 he) with rfl | he
      · exact hd
      · exact hothers e he
    · rw [if_neg hall] at he
      rcases List.mem_append.1 he with he | he
      · rcases List.mem_cons.1 (List.perm_middle.mem_iff.1 he) with rfl | he
        · obtain ⟨halign, -, hlimit'⟩ := hd
          refine ⟨halign, Nat.sub_pos_of_lt (Nat.lt_of_le_of_ne hle (Ne.symm hall)), ?_⟩
          exact Nat.lt_of_le_of_lt (Nat.add_le_add_left (Nat.mul_le_mul_right _ (Nat.sub_le ..)) _) hlimit'
        · exact hothers e he
      · rw [List.mem_singleton.1 he]
        exact hbase

end FindSpace

/-! ### The calls of the loader -/

structure Request where
  noPages : Nat
  type : MemoryType
  attr : Nat
  deriving DecidableEq, Repr

/-- One call after the other, each with the table that the one before left. -/
def findSpaces : List Request → List Descriptor → List Nat × List Descriptor
  | [], desc => ([], desc)
  | r :: requests, desc =>
      let found := findSpace r.noPages r.type r.attr desc
      let later := findSpaces requests found.2
      (found.1 :: later.1, later.2)

/-- The ranges of the requests that were granted. -/
def granted : List Request → List Nat → List (Region (MemoryType × Nat))
  | r :: requests, base :: bases =>
      if base = 0 then granted requests bases else target r.type base r.noPages r.attr :: granted requests bases
  | _, _ => []

theorem findSpaces_takes {requests : List Request} {desc : List Descriptor}
    (hrequests : ∀ r ∈ requests, 0 < r.noPages ∧ r.type ≠ .conventionalMemory) (hgood : ∀ d ∈ desc, d.Good)
    (hsep : Separate (regions desc)) :
    TakesAll (fun kind => kind.1 = .conventionalMemory) (regions desc)
        (granted requests (findSpaces requests desc).1) (regions (findSpaces requests desc).2) ∧
      (∀ d ∈ (findSpaces requests desc).2, d.Good) ∧
      ∀ r ∈ granted requests (findSpaces requests desc).1, r.stop ≤ 0x100000000 := by
  induction requests generalizing desc with
  | nil => exact ⟨.nil _, hgood, fun r hr => absurd hr List.not_mem_nil⟩
  | cons r requests ih =>
      obtain ⟨⟨hpages, htype⟩, hrequests⟩ := List.forall_mem_cons.1 hrequests
      rw [findSpaces]
      dsimp only
      rw [granted]
      by_cases hfound : (findSpace r.noPages r.type r.attr desc).1 = 0
      · have hsame : (findSpace r.noPages r.type r.attr desc).2 = desc := by
          rcases findSpace_spec r.noPages r.type r.attr hgood with
            ⟨hnone, -⟩ | ⟨front, d, back, rfl, -, hsuitable, hpos, -, hfind⟩
          · rw [hnone]
          · have hd : d.Good := hgood d (List.mem_append_right _ List.mem_cons_self)
            have hle : r.noPages * 4096 ≤ d.numberOfPages * 4096 := Nat.mul_le_mul_right _ hsuitable.2.1
            rw [hfind, hd.stop_eq] at hfound
            dsimp only at hfound
            omega
        rw [if_pos hfound, hsame]
        exact ih hrequests hgood hsep
      · obtain ⟨htakes, hgood', hlimit⟩ := findSpace_takes hgood hpages hsep htype hfound
        obtain ⟨hall, hlast, hlimits⟩ := ih hrequests hgood' (htakes.placed.separate hsep)
        rw [if_neg hfound]
        exact ⟨.cons htakes hall, hlast, List.forall_mem_cons.2 ⟨hlimit, hlimits⟩⟩

/-- Whatever the loader asks for, what it is given was free memory of the BIOS below four gigabytes, no address of it is
given twice, and all else is in the table as the BIOS has it. -/
theorem findSpaces_granted {biosMemoryMap : List BiosEntry} (hsane : ∀ e ∈ biosMemoryMap, e.Sane)
    (hnested : Nested (fun kind => kind.1 = .conventionalMemory) (biosRegions biosMemoryMap)) {requests : List Request}
    (hrequests : ∀ r ∈ requests, 0 < r.noPages ∧ r.type ≠ .conventionalMemory) :
    (granted requests (findSpaces requests (genMemoryMap biosMemoryMap [])).1).Pairwise Region.Apart ∧
      (∀ r ∈ granted requests (findSpaces requests (genMemoryMap biosMemoryMap [])).1, r.stop ≤ 0x100000000 ∧
        ∀ a, r.Covers a → ∃ kind, biosKind biosMemoryMap a = some kind ∧ kind.1 = .conventionalMemory) ∧
      kindAt (regions (findSpaces requests (genMemoryMap biosMemoryMap [])).2) =
        (granted requests (findSpaces requests (genMemoryMap biosMemoryMap [])).1).foldl override
          (biosKind biosMemoryMap) := by
  obtain ⟨hsep, hkind⟩ := genMemoryMap_kindAt hsane hnested
  obtain ⟨-, hgood⟩ := genMemoryMap_placed hsane hnested
  obtain ⟨htakes, -, hlimit⟩ := findSpaces_takes hrequests hgood hsep
  obtain ⟨hapart, hfree⟩ := htakes.apart hsep
  refine ⟨hapart, fun r hr => ⟨hlimit r hr, fun a ha => ?_⟩, ?_⟩
  · rw [← hkind a]
    exact (hfree r hr).2 a ha
  · rw [htakes.placed.kindAt_eq hsep]
    congr 1
    exact funext hkind

def sampleRequests : List Request := [⟨0x800, .runtimeServicesData, EFI_MEMORY_WB⟩, ⟨9, .runtimeServicesCode, EFI_MEMORY_WB⟩]

theorem sampleBios_granted :
    (granted sampleRequests (findSpaces sampleRequests (genMemoryMap sampleBios [])).1).Pairwise Region.Apart ∧
      (∀ r ∈ granted sampleRequests (findSpaces sampleRequests (genMemoryMap sampleBios [])).1, r.stop ≤ 0x100000000 ∧
        ∀ a, r.Covers a → ∃ kind, biosKind sampleBios a = some kind ∧ kind.1 = .conventionalMemory) ∧
      kindAt (regions (findSpaces sampleRequests (genMemoryMap sampleBios [])).2) =
        (granted sampleRequests (findSpaces sampleRequests (genMemoryMap sampleBios [])).1).foldl override
          (biosKind sampleBios) :=
  findSpaces_granted sampleBios_sane sampleBios_nested (by decide)

end BareBoot.MemoryMap
