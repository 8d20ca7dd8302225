import BareBoot.Regions
import Mathlib.Algebra.Order.Ring.Nat

/-! The memory map of `EfiLdr/Support.c`: the table of `EFI_MEMORY_DESCRIPTOR`s that is made of the entries of the BIOS.
Ranges are put into it whole pages at a time, and memory gives way to what the BIOS says of a part of it. -/

namespace BareBoot.MemoryMap

open Regions

inductive MemoryType where
  | reservedMemoryType
  | loaderCode
  | loaderData
  | bootServicesCode
  | bootServicesData
  | runtimeServicesCode
  | runtimeServicesData
  | conventionalMemory
  | unusableMemory
  | acpiReclaimMemory
  | acpiMemoryNvs
  | memoryMappedIo
  | memoryMappedIoPortSpace
  | palCode
  deriving DecidableEq, Repr

structure Descriptor where
  type : MemoryType
  physicalStart : Nat
  virtualStart : Nat
  numberOfPages : Nat
  attr : Nat
  deriving DecidableEq, Repr

/-- A `UINT64`. -/
def u64 (x : Nat) : Nat := x % 2 ^ 64

/-! ### Adding a descriptor -/

/-- One round of the loop of `EfiAddMemoryDescriptor`: the descriptor after it, the one put behind the table, and whether
the function returns. -/
structure Round where
  desc : Descriptor
  added : List Descriptor
  returns : Bool

section Add

variable (type : MemoryType) (baseAddress noPages attr : Nat)

/-- The range begins inside the descriptor and ends there: the front is kept, and the rest behind the range is added. -/
def carve (d : Descriptor) : Descriptor × List Descriptor :=
  let temp := u64 (u64 (baseAddress + 2 ^ 64 - d.physicalStart) / 4096 + noPages)
  if d.physicalStart < baseAddress ∧ temp ≤ d.numberOfPages then
    ({ d with numberOfPages := u64 (temp + 2 ^ 64 - noPages) },
      if temp < d.numberOfPages then
        [⟨.conventionalMemory, u64 (baseAddress + u64 (noPages * 4096)), 0, d.numberOfPages - temp, d.attr⟩]
      else [])
  else (d, [])

/-- The range is all of the descriptor, or its beginning. -/
def settle (d : Descriptor) (added : List Descriptor) : Round :=
  if d.physicalStart = baseAddress ∧ d.numberOfPages = noPages then
    ⟨{ d with type := type, attr := attr }, added, true⟩
  else if d.physicalStart = baseAddress ∧ noPages < d.numberOfPages then
    ⟨{ d with
        numberOfPages := d.numberOfPages - noPages
        physicalStart := u64 (d.physicalStart + u64 (noPages * 4096)) }, added, false⟩
  else ⟨d, added, false⟩

def round (d : Descriptor) : Round :=
  if d.type = .conventionalMemory then
    settle type baseAddress noPages attr (carve baseAddress noPages d).1 (carve baseAddress noPages d).2
  else ⟨d, [], false⟩

/-- The loop over the descriptors that are there, and what it puts behind them. -/
def rounds : List Descriptor → List Descriptor × List Descriptor × Bool
  | [] => ([], [], false)
  | d :: desc =>
      let r := round type baseAddress noPages attr d
      if r.returns then (r.desc :: desc, r.added, true)
      else
        let (desc, added, returns) := rounds desc
        (r.desc :: desc, r.added ++ added, returns)

def efiAddMemoryDescriptor (desc : List Descriptor) : List Descriptor :=
  if noPages = 0 then desc
  else
    let (desc, added, returns) := rounds type baseAddress noPages attr desc
    if returns then desc ++ added
    else desc ++ added ++ [⟨type, baseAddress, 0, noPages, attr⟩]

end Add

/-! ### The entries of the BIOS -/

structure BiosEntry where
  baseAddress : Nat
  length : Nat
  type : Nat
  deriving DecidableEq, Repr

def EFI_MEMORY_UC : Nat := 1
def EFI_MEMORY_WB : Nat := 8

/-- `Type` and `Attr`. -/
def BiosEntry.kind (e : BiosEntry) : MemoryType × Nat :=
  match e.type with
  | 1 => (.conventionalMemory, EFI_MEMORY_WB)
  | 2 => (.reservedMemoryType, EFI_MEMORY_UC)
  | 3 => (.acpiReclaimMemory, EFI_MEMORY_WB)
  | 4 => (.acpiMemoryNvs, EFI_MEMORY_UC)
  | _ => (.reservedMemoryType, EFI_MEMORY_UC)

/-- `BaseAddress` and the pages of an entry: memory ends at whole pages inside it, and other ranges at those around it. -/
def BiosEntry.rounded (e : BiosEntry) : Nat × Nat :=
  if e.kind.1 = .conventionalMemory then
    if e.baseAddress % 4096 ≠ 0 then
      (u64 ((e.baseAddress / 4096 + 1) * 4096), u64 (e.length + e.baseAddress % 4096 + 2 ^ 64 - 4096) / 4096)
    else (e.baseAddress, e.length / 4096)
  else
    let length := u64 (e.length + e.baseAddress % 4096)
    (e.baseAddress / 4096 * 4096,
      (if length % 4096 ≠ 0 then u64 ((length / 4096 + 1) * 4096) else length) / 4096)

def genMemoryMap (biosMemoryMap : List BiosEntry) (desc : List Descriptor) : List Descriptor :=
  biosMemoryMap.foldl (fun desc e =>
    efiAddMemoryDescriptor e.kind.1 e.rounded.1 e.rounded.2 e.kind.2 desc) desc

/-! ### Descriptors as regions -/

def Descriptor.region (d : Descriptor) : Region (MemoryType × Nat) :=
  ⟨d.physicalStart, d.numberOfPages * 4096, (d.type, d.attr)⟩

def regions (desc : List Descriptor) : List (Region (MemoryType × Nat)) := desc.map Descriptor.region

/-- Pages from a start on, that do not reach the end of the address space. -/
def GoodRange (start pages : Nat) : Prop := start % 4096 = 0 ∧ 0 < pages ∧ start + pages * 4096 < 2 ^ 64

def Descriptor.Good (d : Descriptor) : Prop := GoodRange d.physicalStart d.numberOfPages

theorem u64_of_lt {x : Nat} (h : x < 2 ^ 64) : u64 x = x := Nat.mod_eq_of_lt h

section Add

variable {type : MemoryType} {baseAddress noPages attr : Nat} {d : Descriptor}

/-- The offset of the end of a range in a descriptor that begins before it. -/
theorem temp_eq (hd : d.Good) (hrange : GoodRange baseAddress noPages) (hstart : d.physicalStart ≤ baseAddress) :
    u64 (u64 (baseAddress + 2 ^ 64 - d.physicalStart) / 4096 + noPages) =
      (baseAddress - d.physicalStart) / 4096 + noPages := by
  obtain ⟨-, -, hlimit⟩ := hd
  obtain ⟨-, -, hlimit'⟩ := hrange
  have hdiff : u64 (baseAddress + 2 ^ 64 - d.physicalStart) = baseAddress - d.physicalStart := by
    rw [u64]
    omega
  rw [hdiff, u64_of_lt]
  omega

theorem carve_of_apart (hd : d.Good) (hrange : GoodRange baseAddress noPages)
    (h : d.region.stop ≤ baseAddress ∨ baseAddress ≤ d.physicalStart) : carve baseAddress noPages d = (d, []) := by
  rw [carve]
  by_cases hstart : d.physicalStart < baseAddress
  · have htemp := temp_eq hd hrange (Nat.le_of_lt hstart)
    have hstop : d.physicalStart + d.numberOfPages * 4096 ≤ baseAddress := h.resolve_right (Nat.not_le_of_lt hstart)
    obtain ⟨-, hpages, -⟩ := hrange
    rw [htemp, if_neg]
    omega
  · rw [if_neg fun hnot => hstart hnot.1]

theorem round_of_apart (hd : d.Good) (hrange : GoodRange baseAddress noPages)
    (h : d.region.stop ≤ baseAddress ∨ baseAddress + noPages * 4096 ≤ d.physicalStart) :
    round type baseAddress noPages attr d = ⟨d, [], false⟩ := by
  have hpages := hrange.2.1
  rw [round]
  by_cases htype : d.type = .conventionalMemory
  · have hne : d.physicalStart ≠ baseAddress := by
      obtain ⟨-, hpages', -⟩ := hd
      rcases h with h | h
      · rw [Region.stop, Descriptor.region] at h
        dsimp only at h
        omega
      · omega
    rw [if_pos htype, carve_of_apart hd hrange (h.imp_right (by omega)), settle, if_neg fun hnot => hne hnot.1,
      if_neg fun hnot => hne hnot.1]
  · rw [if_neg htype]

/-- The range as a region. -/
def target (type : MemoryType) (baseAddress noPages attr : Nat) : Region (MemoryType × Nat) :=
  ⟨baseAddress, noPages * 4096, (type, attr)⟩

/-- What a round leaves of a descriptor around the range, or that it puts the range in its place. -/
structure Cut (type : MemoryType) (baseAddress noPages attr : Nat) (d : Descriptor) (e : Round) : Prop where
  good : ∀ f ∈ e.desc :: e.added, f.Good
  added : e.returns = true → e.added = []
  regions : regions (e.desc :: e.added) =
    if e.returns then [target type baseAddress noPages attr]
    else d.region.remainder (target type baseAddress noPages attr)
  remainder : e.returns = true → d.region.remainder (target type baseAddress noPages attr) = []

section Within

variable (hd : d.Good) (hrange : GoodRange baseAddress noPages) (htype : d.type = .conventionalMemory)
  (hr : (target type baseAddress noPages attr).Within d.region)
include hd hrange htype hr

theorem round_of_front (hstart : d.physicalStart < baseAddress) :
    Cut type baseAddress noPages attr d (round type baseAddress noPages attr d) := by
  have htemp := temp_eq hd hrange (Nat.le_of_lt hstart)
  obtain ⟨halign, hpages, hlimit⟩ := hd
  obtain ⟨halign', hpages', hlimit'⟩ := hrange
  have hstop : baseAddress + noPages * 4096 ≤ d.physicalStart + d.numberOfPages * 4096 := hr.2
  obtain ⟨q, hq, hbase⟩ : ∃ q, (baseAddress - d.physicalStart) / 4096 = q ∧ baseAddress = d.physicalStart + q * 4096 :=
    ⟨_, rfl, by omega⟩
  have hfrontGood : GoodRange d.physicalStart q :=
    ⟨halign, by omega, hbase ▸ Nat.lt_of_le_of_lt (Nat.le_add_right _ _) hlimit'⟩
  rw [hq] at htemp
  have hround : round type baseAddress noPages attr d =
      ⟨{ d with numberOfPages := q },
        if q + noPages < d.numberOfPages then
          [⟨.conventionalMemory, baseAddress + noPages * 4096, 0,
            d.numberOfPages - (q + noPages), d.attr⟩]
        else [], false⟩ := by
    have hfront : u64 (q + noPages + 2 ^ 64 - noPages) =
        q := by
      rw [u64]
      omega
    rw [round, if_pos htype, carve, htemp, if_pos ⟨hstart, by omega⟩, u64_of_lt (show noPages * 4096 < 2 ^ 64 by omega),
      u64_of_lt hlimit', hfront, settle, if_neg fun h => absurd h.1 (Nat.ne_of_lt hstart),
      if_neg fun h => absurd h.1 (Nat.ne_of_lt hstart)]
  have hfrontRegion : (d.region.front (target type baseAddress noPages attr)) =
      ⟨d.physicalStart, q * 4096, (d.type, d.attr)⟩ := by
    rw [Region.front, target, Descriptor.region]
    dsimp only
    congr 1
    omega
  have hbackRegion : (d.region.back (target type baseAddress noPages attr)) =
      ⟨baseAddress + noPages * 4096, (d.numberOfPages - (q + noPages)) * 4096,
        (d.type, d.attr)⟩ := by
    dsimp only [Region.back, target, Descriptor.region, Region.stop]
    congr 1
    omega
  rw [hround]
  refine ⟨?_, fun h => absurd h Bool.false_ne_true, ?_, fun h => absurd h Bool.false_ne_true⟩
  · refine List.forall_mem_cons.2 ⟨hfrontGood, fun f hf => ?_⟩
    · dsimp only at hf
      split_ifs at hf with hback
      · rw [List.mem_singleton.1 hf]
        refine ⟨?_, ?_, ?_⟩ <;> dsimp only <;> omega
      · cases hf
  · rw [if_neg Bool.false_ne_true, Region.remainder, hfrontRegion, hbackRegion,
      List.filter_cons_of_pos (by dsimp only; exact decide_eq_true (by omega))]
    by_cases hback : q + noPages < d.numberOfPages
    · rw [List.filter_cons_of_pos (by dsimp only; exact decide_eq_true (by omega))]
      dsimp only
      rw [if_pos hback, htype]
      rfl
    · rw [List.filter_cons_of_neg (by dsimp only; rw [decide_eq_true_eq]; omega)]
      dsimp only
      rw [if_neg hback]
      rfl

theorem round_of_start (hstart : d.physicalStart = baseAddress) :
    Cut type baseAddress noPages attr d (round type baseAddress noPages attr d) := by
  have hcarve : carve baseAddress noPages d = (d, []) := carve_of_apart hd hrange (Or.inr (Nat.le_of_eq hstart.symm))
  obtain ⟨halign, hpages, hlimit⟩ := hd
  obtain ⟨halign', hpages', hlimit'⟩ := hrange
  have hstop : baseAddress + noPages * 4096 ≤ d.physicalStart + d.numberOfPages * 4096 := hr.2
  have hfront : ¬0 < (d.region.front (target type baseAddress noPages attr)).size := by
    dsimp only [Region.front, target, Descriptor.region]
    omega
  rw [round, if_pos htype, hcarve, settle]
  by_cases hall : d.numberOfPages = noPages
  · rw [if_pos ⟨hstart, hall⟩]
    have hback : ¬0 < (d.region.back (target type baseAddress noPages attr)).size := by
      dsimp only [Region.back, target, Descriptor.region, Region.stop]
      omega
    refine ⟨List.forall_mem_singleton.2 ⟨halign, hpages, hlimit⟩, fun _ => rfl, ?_, fun _ => ?_⟩
    · rw [if_pos rfl, ← hstart, ← hall]
      rfl
    · rw [Region.remainder, List.filter_cons_of_neg (by rwa [decide_eq_true_eq]),
        List.filter_cons_of_neg (by rwa [decide_eq_true_eq]), List.filter_nil]
  · have hmore : noPages < d.numberOfPages := by omega
    rw [if_neg fun h => hall h.2, if_pos ⟨hstart, hmore⟩, u64_of_lt (show noPages * 4096 < 2 ^ 64 by omega), hstart,
      u64_of_lt hlimit']
    refine ⟨List.forall_mem_singleton.2 ⟨?_, ?_, ?_⟩, fun h => absurd h Bool.false_ne_true, ?_,
      fun h => absurd h Bool.false_ne_true⟩
    · dsimp only
      omega
    · dsimp only
      omega
    · dsimp only
      omega
    · have hbackRegion : (d.region.back (target type baseAddress noPages attr)) =
          ⟨baseAddress + noPages * 4096, (d.numberOfPages - noPages) * 4096, (d.type, d.attr)⟩ := by
        dsimp only [Region.back, target, Descriptor.region, Region.stop]
        congr 1
        omega
      rw [if_neg Bool.false_ne_true, Region.remainder, List.filter_cons_of_neg (by rwa [decide_eq_true_eq]), hbackRegion,
        List.filter_cons_of_pos (by dsimp only; exact decide_eq_true (by omega)), List.filter_nil]
      rfl

theorem round_of_within : Cut type baseAddress noPages attr d (round type baseAddress noPages attr d) := by
  rcases Nat.lt_or_eq_of_le hr.1 with hstart | hstart
  · exact round_of_front hd hrange htype hr hstart
  · exact round_of_start hd hrange htype hr hstart

end Within

theorem apart_target (h : (target type baseAddress noPages attr).Apart d.region) :
    d.region.stop ≤ baseAddress ∨ baseAddress + noPages * 4096 ≤ d.physicalStart := h.symm

theorem rounds_of_apart (hrange : GoodRange baseAddress noPages) {desc : List Descriptor} (hgood : ∀ d ∈ desc, d.Good)
    (h : ∀ d ∈ desc, (target type baseAddress noPages attr).Apart d.region) :
    rounds type baseAddress noPages attr desc = (desc, [], false) := by
  induction desc with
  | nil => rfl
  | cons d desc ih =>
      rw [List.forall_mem_cons] at hgood h
      rw [rounds, round_of_apart hgood.1 hrange (apart_target h.1), ih hgood.2 h.2]
      rfl

/-- One descriptor of the table is changed, the rest of it put behind the table. -/
theorem rounds_of_split (hrange : GoodRange baseAddress noPages) {front back : List Descriptor}
    (hgood : ∀ d ∈ front ++ back, d.Good)
    (h : ∀ d ∈ front ++ back, (target type baseAddress noPages attr).Apart d.region) :
    rounds type baseAddress noPages attr (front ++ d :: back) =
      (front ++ (round type baseAddress noPages attr d).desc :: back, (round type baseAddress noPages attr d).added,
        (round type baseAddress noPages attr d).returns) := by
  induction front with
  | nil =>
      rw [List.nil_append] at hgood h
      rw [List.nil_append, List.nil_append, rounds, rounds_of_apart hrange hgood h]
      cases hreturns : (round type baseAddress noPages attr d).returns <;> simp
  | cons e front ih =>
      rw [List.cons_append, List.forall_mem_cons] at hgood h
      rw [List.cons_append, rounds, round_of_apart hgood.1 hrange (apart_target h.1), ih hgood.2 h.2]
      rfl

theorem perm_shift {α : Type} (front back added : List α) (x y : α) :
    (front ++ x :: back ++ added ++ [y]).Perm (y :: ((x :: added) ++ (front ++ back))) := by
  have hback : (front ++ x :: back ++ added ++ [y]).Perm (y :: (front ++ x :: back ++ added)) :=
    List.perm_append_comm
  refine hback.trans (List.Perm.cons y ?_)
  have hmiddle : (front ++ x :: back).Perm (x :: (front ++ back)) := List.perm_middle
  refine (hmiddle.append_right added).trans ?_
  rw [List.cons_append, List.cons_append]
  exact List.Perm.cons x List.perm_append_comm

/-- `EfiAddMemoryDescriptor` puts a range that fits into the table. -/
theorem efiAddMemoryDescriptor_placed (hrange : GoodRange baseAddress noPages) {desc : List Descriptor}
    (hgood : ∀ d ∈ desc, d.Good) (hsep : Separate (regions desc))
    (hfits : Fits (fun kind => kind.1 = .conventionalMemory) (regions desc) (target type baseAddress noPages attr)) :
    Placed (regions desc) (target type baseAddress noPages attr)
        (regions (efiAddMemoryDescriptor type baseAddress noPages attr desc)) ∧
      ∀ d ∈ efiAddMemoryDescriptor type baseAddress noPages attr desc, d.Good := by
  have hpages : 0 < noPages := hrange.2.1
  rw [efiAddMemoryDescriptor, if_neg (Nat.ne_of_gt hpages)]
  rcases hfits with hapart | ⟨r, hr, hwithin, htype⟩
  · rw [rounds_of_apart hrange hgood fun d hd => hapart _ (List.mem_map_of_mem hd)]
    refine ⟨.added hapart ?_, fun d hd => ?_⟩
    · show (regions (desc ++ [] ++ [_])).Perm _
      rw [List.append_nil, regions, List.map_append]
      exact List.perm_append_comm
    · rcases List.mem_append.1 hd with hd | hd
      · exact hgood d (by simpa using hd)
      · rw [List.mem_singleton.1 hd]
        exact hrange
  · obtain ⟨d, hd, rfl⟩ := List.mem_map.1 hr
    obtain ⟨front, back, rfl⟩ := List.append_of_mem hd
    have hperm : (front ++ d :: back).Perm (d :: (front ++ back)) := List.perm_middle
    have hregions : (regions (front ++ d :: back)).Perm (d.region :: regions (front ++ back)) := hperm.map _
    have hothers := (List.pairwise_cons.1 (hsep.perm hregions)).1
    have hgood' : ∀ e ∈ front ++ back, e.Good := fun e he => hgood e (hperm.mem_iff.2 (List.mem_cons_of_mem _ he))
    have hcut := round_of_within (hgood d hd) hrange htype hwithin
    rw [rounds_of_split hrange hgood' fun e he => ((hothers _ (List.mem_map_of_mem he)).within hwithin)]
    generalize round type baseAddress noPages attr d = e at hcut
    obtain ⟨hgoods, hadded, hcuts, hremainder⟩ := hcut
    dsimp only
    cases hreturns : e.returns with
    | true =>
        rw [hreturns, if_pos rfl, hadded hreturns] at hcuts
        rw [if_pos rfl, hadded hreturns, List.append_nil]
        refine ⟨.carved d.region _ hregions hwithin ?_, fun f hf => ?_⟩
        · rw [hremainder hreturns, List.nil_append]
          have hdesc : e.desc.region = target type baseAddress noPages attr := by simpa [regions] using hcuts
          rw [← hdesc]
          exact List.Perm.map _ List.perm_middle
        · rcases List.mem_cons.1 (List.perm_middle.mem_iff.1 hf) with rfl | hf
          · exact hgoods _ List.mem_cons_self
          · exact hgood' f hf
    | false =>
        rw [hreturns, if_neg Bool.false_ne_true] at hcuts
        rw [if_neg Bool.false_ne_true]
        have hshift := perm_shift front back e.added e.desc ⟨type, baseAddress, 0, noPages, attr⟩
        refine ⟨.carved d.region _ hregions hwithin ?_, fun f hf => ?_⟩
        · rw [← hcuts, regions, regions, regions, ← List.map_append]
          exact hshift.map _
        · rcases List.mem_cons.1 (hshift.mem_iff.1 hf) with rfl | hf
          · exact hrange
          · rcases List.mem_append.1 hf with hf | hf
            · exact hgoods f hf
            · exact hgood' f hf

end Add

/-! ### The table of a BIOS -/

namespace BiosEntry

/-- The range that is put into the table for the entry. -/
def range (e : BiosEntry) : Region (MemoryType × Nat) := target e.kind.1 e.rounded.1 e.rounded.2 e.kind.2

/-- The entry is not empty and ends far enough from the end of the address space, and memory that begins inside a page
reaches the next one. -/
structure Sane (e : BiosEntry) : Prop where
  length : 0 < e.length
  limit : e.baseAddress + e.length + 8192 < 2 ^ 64
  reaches : e.kind.1 = .conventionalMemory → e.baseAddress % 4096 ≠ 0 → 4096 ≤ e.baseAddress % 4096 + e.length

/-- The page of an address lies in the entry if it is memory, and has an address in common with it otherwise. -/
def Holds (e : BiosEntry) (a : Nat) : Prop :=
  if e.kind.1 = .conventionalMemory then
    e.baseAddress ≤ a / 4096 * 4096 ∧ a / 4096 * 4096 + 4096 ≤ e.baseAddress + e.length
  else e.baseAddress < a / 4096 * 4096 + 4096 ∧ a / 4096 * 4096 < e.baseAddress + e.length

instance (e : BiosEntry) (a : Nat) : Decidable (e.Holds a) := inferInstanceAs (Decidable (ite ..))

variable {e : BiosEntry}

theorem rounded_memory (h : e.Sane) (htype : e.kind.1 = .conventionalMemory) :
    e.rounded = ((e.baseAddress + 4095) / 4096 * 4096,
      (e.baseAddress + e.length) / 4096 - (e.baseAddress + 4095) / 4096) := by
  obtain ⟨hlength, hlimit, hreaches⟩ := h
  rw [rounded, if_pos htype]
  by_cases halign : e.baseAddress % 4096 ≠ 0
  · have hpage := hreaches htype halign
    rw [if_pos halign, u64, u64]
    refine Prod.ext ?_ ?_ <;> dsimp only <;> omega
  · rw [if_neg halign]
    refine Prod.ext ?_ ?_ <;> dsimp only <;> omega

theorem rounded_other (h : e.Sane) (htype : e.kind.1 ≠ .conventionalMemory) :
    e.rounded = (e.baseAddress / 4096 * 4096,
      (e.baseAddress + e.length + 4095) / 4096 - e.baseAddress / 4096) := by
  obtain ⟨hlength, hlimit, -⟩ := h
  have hsum : u64 (e.length + e.baseAddress % 4096) = e.length + e.baseAddress % 4096 := u64_of_lt (by omega)
  rw [rounded, if_neg htype, hsum]
  refine Prod.ext rfl ?_
  by_cases halign : (e.length + e.baseAddress % 4096) % 4096 ≠ 0
  · dsimp only
    rw [if_pos halign, u64_of_lt (by omega)]
    omega
  · dsimp only
    rw [if_neg halign]
    omega

theorem goodRange (h : e.Sane) (hpages : 0 < e.rounded.2) : GoodRange e.rounded.1 e.rounded.2 := by
  have hlimit := h.limit
  by_cases htype : e.kind.1 = .conventionalMemory
  · rw [rounded_memory h htype] at hpages ⊢
    dsimp only at hpages ⊢
    refine ⟨Nat.mul_mod_left .., hpages, ?_⟩
    omega
  · rw [rounded_other h htype] at hpages ⊢
    dsimp only at hpages ⊢
    refine ⟨Nat.mul_mod_left .., hpages, ?_⟩
    omega

theorem range_covers_iff (h : e.Sane) (a : Nat) : e.range.Covers a ↔ e.Holds a := by
  rw [Region.Covers, Region.stop, range, target, Holds]
  by_cases htype : e.kind.1 = .conventionalMemory
  · rw [if_pos htype, rounded_memory h htype]
    dsimp only
    omega
  · rw [if_neg htype, rounded_other h htype]
    dsimp only
    omega

end BiosEntry

/-- What the last entry that holds the page of an address says. -/
def biosKind (biosMemoryMap : List BiosEntry) (a : Nat) : Option (MemoryType × Nat) :=
  biosMemoryMap.foldl (fun kind e => if e.Holds a then some e.kind else kind) none

/-- The entries that have pages, as regions. -/
def biosRegions (biosMemoryMap : List BiosEntry) : List (Region (MemoryType × Nat)) :=
  (biosMemoryMap.filter (0 < ·.rounded.2)).map BiosEntry.range

theorem genMemoryMap_filter (biosMemoryMap : List BiosEntry) (desc : List Descriptor) :
    genMemoryMap (biosMemoryMap.filter (0 < ·.rounded.2)) desc = genMemoryMap biosMemoryMap desc := by
  rw [genMemoryMap, genMemoryMap, List.foldl_filter]
  congr 1
  funext desc e
  by_cases hpages : 0 < e.rounded.2
  · rw [if_pos (decide_eq_true hpages)]
  · rw [if_neg (by rwa [decide_eq_true_eq]), efiAddMemoryDescriptor, if_pos (Nat.eq_zero_of_not_pos hpages)]

theorem genMemoryMap_placed {biosMemoryMap : List BiosEntry} (hsane : ∀ e ∈ biosMemoryMap, e.Sane)
    (hnested : Nested (fun kind => kind.1 = .conventionalMemory) (biosRegions biosMemoryMap)) :
    PlacedAll [] (biosRegions biosMemoryMap) (regions (genMemoryMap biosMemoryMap [])) ∧
      ∀ d ∈ genMemoryMap biosMemoryMap [], d.Good := by
  have hpages : ∀ e ∈ biosMemoryMap.filter (0 < ·.rounded.2), GoodRange e.rounded.1 e.rounded.2 := by
    intro e he
    obtain ⟨he, hpos⟩ := List.mem_filter.1 he
    exact BiosEntry.goodRange (hsane e he) (of_decide_eq_true hpos)
  rw [← genMemoryMap_filter, genMemoryMap]
  refine foldl_placed (s := []) regions BiosEntry.range (fun desc => ∀ d ∈ desc, d.Good) ?_ ?_ hnested ?_ Records.empty ?_
  · intro desc e he hgood hsep hfits
    exact efiAddMemoryDescriptor_placed (hpages e he) hgood hsep hfits
  · intro e he
    exact Nat.mul_pos (hpages e he).2.1 (by decide)
  · exact fun d hd => absurd hd List.not_mem_nil
  · exact fun e _ p hp => absurd hp List.not_mem_nil

theorem biosKind_eq {biosMemoryMap : List BiosEntry} (hsane : ∀ e ∈ biosMemoryMap, e.Sane) (a : Nat) :
    (biosRegions biosMemoryMap).foldl override (fun _ => none) a = biosKind biosMemoryMap a := by
  rw [foldl_override_apply, biosRegions, List.foldl_map, List.foldl_filter, biosKind]
  apply List.foldl_ext
  intro kind e he
  have hcovers := BiosEntry.range_covers_iff (hsane e he) a
  by_cases hholds : e.Holds a
  · have hpages : 0 < e.rounded.2 := by
      obtain ⟨hstart, hstop⟩ := hcovers.2 hholds
      rw [Region.stop, BiosEntry.range, target] at hstop
      rw [BiosEntry.range, target] at hstart
      dsimp only at hstart hstop
      omega
    rw [if_pos (decide_eq_true hpages), if_pos hholds, if_pos (hcovers.2 hholds)]
    rfl
  · rw [if_neg hholds, if_neg fun h => hholds (hcovers.1 h), ite_self]

/-- The table made of the entries of a BIOS: its descriptors are apart, and it says for each address what the last entry
that holds its page says. -/
theorem genMemoryMap_kindAt {biosMemoryMap : List BiosEntry} (hsane : ∀ e ∈ biosMemoryMap, e.Sane)
    (hnested : Nested (fun kind => kind.1 = .conventionalMemory) (biosRegions biosMemoryMap)) :
    Separate (regions (genMemoryMap biosMemoryMap [])) ∧
      ∀ a, kindAt (regions (genMemoryMap biosMemoryMap [])) a = biosKind biosMemoryMap a := by
  obtain ⟨hplaced, -⟩ := genMemoryMap_placed hsane hnested
  refine ⟨hplaced.separate .nil, fun a => ?_⟩
  rw [hplaced.kindAt_eq .nil, kindAt_nil, biosKind_eq hsane]

/-- Low memory, the ranges around one megabyte, memory with a reserved range in it, and ACPI tables. -/
def sampleBios : List BiosEntry :=
  [⟨0, 0x9FC00, 1⟩, ⟨0x9FC00, 0x400, 2⟩, ⟨0xF0000, 0x10000, 2⟩, ⟨0x100000, 0x3FEF0000, 1⟩, ⟨0x20000000, 0x200000, 2⟩,
    ⟨0x3FFF0000, 0xA123, 3⟩]

theorem sampleBios_sane : ∀ e ∈ sampleBios, e.Sane := by
  simp only [sampleBios, List.forall_mem_cons]
  refine ⟨?_, ?_, ?_, ?_, ?_, ?_, fun e he => absurd he List.not_mem_nil⟩ <;>
    exact ⟨by decide, by decide, by decide⟩

theorem sampleBios_nested : Nested (fun kind => kind.1 = .conventionalMemory) (biosRegions sampleBios) := by
  decide

theorem sampleBios_kindAt : Separate (regions (genMemoryMap sampleBios [])) ∧
    ∀ a, kindAt (regions (genMemoryMap sampleBios [])) a = biosKind sampleBios a :=
  genMemoryMap_kindAt sampleBios_sane sampleBios_nested

end BareBoot.MemoryMap
