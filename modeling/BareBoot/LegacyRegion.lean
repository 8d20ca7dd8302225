import Mathlib.Data.BitVec
import Mathlib.Tactic.IntervalCases
import Mathlib.Tactic.SplitIfs

/-! The legacy regions below one megabyte. Two bits of a configuration register of the chipset tell for each of thirteen
sections whether reads and writes of it reach memory. -/

namespace BareBoot.LegacyRegion

structure Device where
  bus : Nat
  dev : Nat
  func : Nat
  deriving DecidableEq, Repr

/-- The configuration space of all devices. -/
abbrev Config := Device → Nat → BitVec 8

def pciRead8 (config : Config) (device : Device) (offset : Nat) : BitVec 8 := config device offset

def pciRead16 (config : Config) (device : Device) (offset : Nat) : Nat :=
  (config device offset).toNat + 256 * (config device (offset + 1)).toNat

def pciRead32 (config : Config) (device : Device) (offset : Nat) : Nat :=
  pciRead16 config device offset + 65536 * pciRead16 config device (offset + 2)

def pciWrite8 (config : Config) (device : Device) (offset : Nat) (value : BitVec 8) : Config :=
  fun d o => if d = device ∧ o = offset then value else config d o

def pciOr8 (config : Config) (device : Device) (offset : Nat) (orData : BitVec 8) : Config :=
  pciWrite8 config device offset (pciRead8 config device offset ||| orData)

def pciAnd8 (config : Config) (device : Device) (offset : Nat) (andData : BitVec 8) : Config :=
  pciWrite8 config device offset (pciRead8 config device offset &&& andData)

/-! ### Tables -/

structure MemorySection where
  start : Nat
  length : Nat
  deriving DecidableEq, Repr

def mSectionArray : List MemorySection :=
  [⟨0xC0000, 0x4000⟩, ⟨0xC4000, 0x4000⟩, ⟨0xC8000, 0x4000⟩, ⟨0xCC000, 0x4000⟩, ⟨0xD0000, 0x4000⟩, ⟨0xD4000, 0x4000⟩,
    ⟨0xD8000, 0x4000⟩, ⟨0xDC000, 0x4000⟩, ⟨0xE0000, 0x4000⟩, ⟨0xE4000, 0x4000⟩, ⟨0xE8000, 0x4000⟩, ⟨0xEC000, 0x4000⟩,
    ⟨0xF0000, 0x10000⟩]

structure PamRegisterValue where
  pamRegOffset : Nat
  readEnableData : BitVec 8
  writeEnableData : BitVec 8
  deriving DecidableEq, Repr

/-- The registers `PAM0` to `PAM6` follow each other. -/
def registerValues (pam0 : Nat) : List PamRegisterValue :=
  [⟨pam0 + 1, 0x01, 0x02⟩, ⟨pam0 + 1, 0x10, 0x20⟩, ⟨pam0 + 2, 0x01, 0x02⟩, ⟨pam0 + 2, 0x10, 0x20⟩, ⟨pam0 + 3, 0x01, 0x02⟩,
    ⟨pam0 + 3, 0x10, 0x20⟩, ⟨pam0 + 4, 0x01, 0x02⟩, ⟨pam0 + 4, 0x10, 0x20⟩, ⟨pam0 + 5, 0x01, 0x02⟩,
    ⟨pam0 + 5, 0x10, 0x20⟩, ⟨pam0 + 6, 0x01, 0x02⟩, ⟨pam0 + 6, 0x10, 0x20⟩, ⟨pam0, 0x10, 0x20⟩]

def mRegisterValues830 : List PamRegisterValue := registerValues 0x59
def mRegisterValuesS4 : List PamRegisterValue := registerValues 0x90
def mRegisterValuesCP : List PamRegisterValue := registerValues 0x80
def mRegisterValuesNH : List PamRegisterValue := registerValues 0x40
def mRegisterValuesNV : List PamRegisterValue := registerValues 0xC0

def sectionAt (index : Nat) : MemorySection := mSectionArray.getD index ⟨0, 0⟩

def MemorySection.Contains (part : MemorySection) (address : Nat) : Prop :=
  part.start ≤ address ∧ address < part.start + part.length

instance (part : MemorySection) (address : Nat) : Decidable (part.Contains address) :=
  inferInstanceAs (Decidable (_ ∧ _))

/-! ### The chipset -/

/-- `mRegisterValues` and the device of the registers. -/
structure Chipset where
  mRegisterValues : List PamRegisterValue
  device : Device
  deriving DecidableEq, Repr

def Chipset.pam (chipset : Chipset) (index : Nat) : PamRegisterValue := chipset.mRegisterValues.getD index ⟨0, 0, 0⟩

def ids830 : List Nat := [0x35758086, 0x35808086]
def ids5000 : List Nat := [0x25C08086, 0x65C08086]
def idsS4 : List Nat :=
  [0x25608086, 0x25708086, 0x25808086, 0x25908086, 0x27708086, 0x27748086, 0x277c8086, 0x27a08086, 0x27ac8086, 0x29208086,
    0x29708086, 0x29808086, 0x29908086, 0x29a08086, 0x29b08086, 0x29c08086, 0x29d08086, 0x29e08086, 0x2a008086, 0x2a108086,
    0x2a408086, 0x2e008086, 0x2e108086, 0x2e208086, 0x2e308086, 0x2e408086, 0x2e908086, 0x81008086, 0xA0008086]
def idsCP : List Nat :=
  [0x01008086, 0x01048086, 0x01088086, 0x010c8086, 0x01508086, 0x01548086, 0x01588086, 0x015c8086, 0x01608086, 0x01648086,
    0x0C008086, 0x0C048086, 0x0A048086]
def idsNH : List Nat :=
  [0x00408086, 0x00448086, 0x00488086, 0x00698086, 0xD1318086, 0xD1328086, 0x34008086, 0x34018086, 0x34028086, 0x34038086,
    0x34048086, 0x34058086, 0x34068086, 0x34078086]

/-- The search for the bus of a Nehalem processor, with the last `VID` and `DID`. -/
def nehalemBus (config : Config) : List Nat → Nat → Nat → Nat × Nat × Nat
  | [], vid, did => (0x1F, vid, did)
  | bus :: buses, _, did =>
      let vid := pciRead16 config ⟨bus, 0, 1⟩ 0
      if vid ≠ 0x8086 then nehalemBus config buses vid did
      else
        let did := pciRead16 config ⟨bus, 0, 1⟩ 2
        if 0x2c00 < did then (bus, vid, did) else nehalemBus config buses vid did

def nehalemDevice (config : Config) : Device :=
  let found := nehalemBus config [0xFF, 0x7F, 0x3F] 0 0
  if found.2.1 ≠ 0x8086 ∨ found.2.2 < 0x2c00 then ⟨0, 0, 0⟩ else ⟨found.1, 0, 1⟩

def detectChipset (config : Config) : Option Chipset :=
  let mVendorDeviceId := pciRead32 config ⟨0, 0, 0⟩ 0
  if mVendorDeviceId ∈ ids830 then some ⟨mRegisterValues830, ⟨0, 0, 0⟩⟩
  else if mVendorDeviceId ∈ ids5000 then some ⟨mRegisterValues830, ⟨0, 16, 0⟩⟩
  else if mVendorDeviceId ∈ idsS4 then some ⟨mRegisterValuesS4, ⟨0, 0, 0⟩⟩
  else if mVendorDeviceId ∈ idsCP then some ⟨mRegisterValuesCP, ⟨0, 0, 0⟩⟩
  else if mVendorDeviceId ∈ idsNH then some ⟨mRegisterValuesNH, nehalemDevice config⟩
  else if mVendorDeviceId = 0x3C008086 then
    some ⟨mRegisterValuesNH, ⟨(pciRead8 config ⟨0, 5, 0⟩ 0x109).toNat, 12, 6⟩⟩
  else if mVendorDeviceId = 0x0a8610de then some ⟨mRegisterValuesNV, ⟨0, 0, 0⟩⟩
  else none

/-! ### Requests -/

/-- The arguments that say where, and whether `Granularity` is given. -/
structure Range where
  start : Nat
  length : Nat
  granularity : Bool
  deriving DecidableEq, Repr

inductive Status where
  | success (granularity : Option Nat)
  | invalidParameter
  | unsupported
  deriving DecidableEq, Repr

def PAM_BASE_ADDRESS : Nat := 0xC0000
def PAM_LIMIT_ADDRESS : Nat := 0x100000

def endAddress (range : Range) : Nat := (range.start + range.length + (2 ^ 32 - 1)) % 2 ^ 32

/-- The section of the start, or the first one. -/
def startIndex (start : Nat) : Nat := ((List.range 13).find? fun index => (sectionAt index).Contains start).getD 0

/-- Sets or clears the bits of `data`, or leaves them. -/
def program (device : Device) (offset : Nat) (data : BitVec 8) (enable : Option Bool) (config : Config) : Config :=
  match enable with
  | none => config
  | some true => pciOr8 config device offset data
  | some false => pciAnd8 config device offset (~~~data)

def Chipset.programSection (chipset : Chipset) (readEnable writeEnable : Option Bool) (index : Nat) (config : Config) :
    Config :=
  let pam := chipset.pam index
  program chipset.device pam.pamRegOffset pam.writeEnableData writeEnable
    (program chipset.device pam.pamRegOffset pam.readEnableData readEnable config)

/-- The loop up to the section of the end, with its length. -/
def Chipset.programFrom (chipset : Chipset) (readEnable writeEnable : Option Bool) (endAddress : Nat) :
    Nat → Nat → Config → Config × Option Nat
  | 0, _, config => (config, none)
  | left + 1, index, config =>
      let config := chipset.programSection readEnable writeEnable index config
      if (sectionAt index).Contains endAddress then (config, some (sectionAt index).length)
      else chipset.programFrom readEnable writeEnable endAddress left (index + 1) config

def Chipset.legacyRegionManipulationInternal (chipset : Chipset) (range : Range) (readEnable writeEnable : Option Bool)
    (config : Config) : Config × Status :=
  if range.length = 0 ∨ range.granularity = false then (config, .invalidParameter)
  else if range.start < PAM_BASE_ADDRESS ∨ PAM_LIMIT_ADDRESS < endAddress range then (config, .invalidParameter)
  else
    let programmed := chipset.programFrom readEnable writeEnable (endAddress range) (13 - startIndex range.start)
      (startIndex range.start) config
    (programmed.1, .success programmed.2)

def Chipset.legacyRegion2Decode (chipset : Chipset) (range : Range) (on : Option Bool) (config : Config) :
    Config × Status :=
  chipset.legacyRegionManipulationInternal range on none config

def legacyRegion2BootLock (range : Range) (config : Config) : Config × Status :=
  if range.start < 0xC0000 ∨ 0xFFFFF < endAddress range then (config, .invalidParameter) else (config, .unsupported)

def Chipset.legacyRegion2Lock (chipset : Chipset) (range : Range) (config : Config) : Config × Status :=
  chipset.legacyRegionManipulationInternal range none (some false) config

def Chipset.legacyRegion2Unlock (chipset : Chipset) (range : Range) (config : Config) : Config × Status :=
  chipset.legacyRegionManipulationInternal range none (some true) config

structure MemorySectionInfo where
  start : Nat
  length : Nat
  readEnabled : Bool
  writeEnabled : Bool
  deriving DecidableEq, Repr

/-- The state of one section. -/
def Chipset.info (chipset : Chipset) (config : Config) (index : Nat) : MemorySectionInfo :=
  let pamValue := pciRead8 config chipset.device (chipset.pam index).pamRegOffset
  ⟨(sectionAt index).start, (sectionAt index).length, pamValue &&& (chipset.pam index).readEnableData != 0,
    pamValue &&& (chipset.pam index).writeEnableData != 0⟩

def Chipset.legacyRegionGetInfoInternal (chipset : Chipset) (config : Config) : List MemorySectionInfo :=
  (List.range 13).map (chipset.info config)

inductive Attribute where
  | decoded
  | notDecoded
  | writeEnabled
  | writeDisabled
  | notLocked
  deriving DecidableEq, Repr

structure Descriptor where
  start : Nat
  length : Nat
  attr : Attribute
  granularity : Nat
  deriving DecidableEq, Repr

def descriptors (info : MemorySectionInfo) : List Descriptor :=
  [⟨info.start, info.length, if info.readEnabled then .decoded else .notDecoded, info.length⟩,
    ⟨info.start, info.length, if info.writeEnabled then .writeEnabled else .writeDisabled, info.length⟩,
    ⟨info.start, info.length, .notLocked, info.length⟩]

/-- The descriptors, where there is room for them. -/
def Chipset.legacyRegionGetInfo (chipset : Chipset) (config : Config) : List Descriptor :=
  (chipset.legacyRegionGetInfoInternal config).flatMap descriptors

/-! ### Bits -/

/-- The bit of a section for reads, or for writes. -/
structure Bit where
  index : Nat
  write : Bool

namespace Bit

def offset (b : Bit) : Nat := if b.index = 12 then 0 else b.index / 2 + 1

def position (b : Bit) : Nat := (if b.index = 12 then 4 else 4 * (b.index % 2)) + b.write.toNat

theorem position_lt (b : Bit) : b.position < 8 := by
  have := Bool.toNat_le b.write
  rw [position]
  split_ifs <;> omega

theorem eq_of_place {b c : Bit} (hb : b.index < 13) (hc : c.index < 13) (hoffset : b.offset = c.offset)
    (hposition : b.position = c.position) : b = c := by
  obtain ⟨i, v⟩ := b
  obtain ⟨j, w⟩ := c
  have hv := Bool.toNat_le v
  have hw := Bool.toNat_le w
  rw [offset, offset] at hoffset
  rw [position, position] at hposition
  dsimp only at hoffset hposition hb hc
  have hindex : i = j := by
    split_ifs at hoffset hposition <;> omega
  subst hindex
  have hwrite := Nat.add_left_cancel hposition
  cases v <;> cases w <;> first | rfl | cases hwrite

end Bit

def PamRegisterValue.data (pam : PamRegisterValue) (write : Bool) : BitVec 8 :=
  if write then pam.writeEnableData else pam.readEnableData

section Registers

variable (pam0 : Nat)

theorem pamRegOffset_eq {b : Bit} (hb : b.index < 13) :
    ((registerValues pam0).getD b.index ⟨0, 0, 0⟩).pamRegOffset = pam0 + b.offset := by
  obtain ⟨index, write⟩ := b
  dsimp only at hb
  interval_cases index <;> simp [registerValues, Bit.offset]

theorem data_eq {b : Bit} (hb : b.index < 13) :
    ((registerValues pam0).getD b.index ⟨0, 0, 0⟩).data b.write = BitVec.twoPow 8 b.position := by
  obtain ⟨index, write⟩ := b
  dsimp only at hb
  interval_cases index <;> cases write <;> simp [registerValues, Bit.position, PamRegisterValue.data] <;> rfl

theorem and_twoPow_ne_zero (x : BitVec 8) {n : Nat} (hn : n < 8) : (x &&& BitVec.twoPow 8 n != 0) = x.getLsbD n := by
  rw [BitVec.and_twoPow]
  cases x.getLsbD n with
  | false => rfl
  | true =>
      rw [if_pos rfl, bne_iff_ne]
      intro hzero
      have hbit := congrArg (fun y => BitVec.getLsbD y n) hzero
      rw [BitVec.getLsbD_twoPow] at hbit
      simp [hn] at hbit

theorem getLsbD_program {device d : Device} {offset o n k : Nat} {enable : Option Bool} {config : Config} (hn : n < 8) :
    (program device offset (BitVec.twoPow 8 n) enable config d o).getLsbD k =
      if d = device ∧ o = offset ∧ k = n then enable.getD ((config d o).getLsbD k) else (config d o).getLsbD k := by
  cases enable with
  | none => rw [program, Option.getD_none, ite_self]
  | some value =>
      have hplace : ∀ data : BitVec 8, pciWrite8 config device offset data d o =
          if d = device ∧ o = offset then data else config d o := fun _ => rfl
      have hbit : (BitVec.twoPow 8 n).getLsbD k = decide (k = n) := by
        rw [BitVec.getLsbD_twoPow, decide_eq_true hn, Bool.true_and, decide_eq_decide]
        exact eq_comm
      by_cases hat : d = device ∧ o = offset
      · obtain ⟨rfl, rfl⟩ := hat
        have hif : (d = d ∧ o = o ∧ k = n) ↔ k = n := ⟨fun h => h.2.2, fun h => ⟨rfl, rfl, h⟩⟩
        cases value
        · rw [program, pciAnd8, hplace, if_pos ⟨rfl, rfl⟩, pciRead8, BitVec.getLsbD_and, BitVec.getLsbD_not, hbit]
          by_cases hk : k = n
          · rw [if_pos (hif.2 hk), decide_eq_true hk, Bool.not_true, Bool.and_false, Bool.and_false]
            rfl
          · rw [if_neg fun h => hk (hif.1 h), decide_eq_false hk, Bool.not_false, Bool.and_true]
            by_cases hwidth : k < 8
            · rw [decide_eq_true hwidth, Bool.and_true]
            · rw [BitVec.getLsbD_of_ge _ _ (Nat.le_of_not_lt hwidth), Bool.false_and]
        · rw [program, pciOr8, hplace, if_pos ⟨rfl, rfl⟩, pciRead8, BitVec.getLsbD_or, hbit]
          by_cases hk : k = n
          · rw [if_pos (hif.2 hk), decide_eq_true hk, Bool.or_true]
            rfl
          · rw [if_neg fun h => hk (hif.1 h), decide_eq_false hk, Bool.or_false]
      · rw [if_neg fun h => hat ⟨h.1, h.2.1⟩]
        cases value
        · rw [program, pciAnd8, hplace, if_neg hat]
        · rw [program, pciOr8, hplace, if_neg hat]

end Registers

/-! ### Requests on the bits -/

/-- Which bits a request sets, by whether they are for writes. -/
abbrev Enable := Bool → Option Bool

/-- The sections from `first` on, up to the first one that has the end. -/
def Reached (first endAddress index : Nat) : Prop :=
  first ≤ index ∧ ∀ i < index, first ≤ i → ¬(sectionAt i).Contains endAddress

instance (first endAddress index : Nat) : Decidable (Reached first endAddress index) :=
  inferInstanceAs (Decidable (_ ∧ _))

theorem Reached.self (first endAddress : Nat) : Reached first endAddress first :=
  ⟨Nat.le_refl _, fun _ hi hle => absurd hi (Nat.not_lt_of_le hle)⟩

theorem reached_iff_of_contains {first endAddress index : Nat} (h : (sectionAt first).Contains endAddress) :
    Reached first endAddress index ↔ index = first := by
  constructor
  · intro hreached
    by_contra hne
    exact hreached.2 first (Nat.lt_of_le_of_ne hreached.1 (Ne.symm hne)) (Nat.le_refl _) h
  · rintro rfl
    exact Reached.self _ _

theorem reached_iff_succ {first endAddress index : Nat} (h : ¬(sectionAt first).Contains endAddress) :
    Reached first endAddress index ↔ index = first ∨ Reached (first + 1) endAddress index := by
  constructor
  · rintro ⟨hle, hnone⟩
    rcases Nat.eq_or_lt_of_le hle with heq | hlt
    · exact Or.inl heq.symm
    · exact Or.inr ⟨hlt, fun i hi hfirst => hnone i hi (Nat.le_of_succ_le hfirst)⟩
  · rintro (rfl | ⟨hle, hnone⟩)
    · exact Reached.self _ _
    · refine ⟨Nat.le_of_succ_le hle, fun i hi hfirst => ?_⟩
      rcases Nat.eq_or_lt_of_le hfirst with rfl | hlt
      · exact h
      · exact hnone i hi hlt

/-- The place of a bit in the configuration space. -/
def At (chipset : Chipset) (pam0 : Nat) (b : Bit) (device : Device) (offset position : Nat) : Prop :=
  device = chipset.device ∧ offset = pam0 + b.offset ∧ position = b.position

instance (chipset : Chipset) (pam0 : Nat) (b : Bit) (device : Device) (offset position : Nat) :
    Decidable (At chipset pam0 b device offset position) :=
  inferInstanceAs (Decidable (_ ∧ _ ∧ _))

theorem At.eq {chipset : Chipset} {pam0 : Nat} {b c : Bit} {device : Device} {offset position : Nat} (hb : b.index < 13)
    (hc : c.index < 13) (h : At chipset pam0 b device offset position) (h' : At chipset pam0 c device offset position) :
    b = c := by
  obtain ⟨-, hoffset, hposition⟩ := h
  obtain ⟨-, hoffset', hposition'⟩ := h'
  exact Bit.eq_of_place hb hc (Nat.add_left_cancel (hoffset.symm.trans hoffset')) (hposition.symm.trans hposition')

section Program

variable {chipset : Chipset} {pam0 : Nat} (hpam : chipset.mRegisterValues = registerValues pam0) {enable : Enable}
  {config : Config}
include hpam

def Chipset.enabled (chipset : Chipset) (config : Config) (b : Bit) : Bool :=
  pciRead8 config chipset.device (chipset.pam b.index).pamRegOffset &&& (chipset.pam b.index).data b.write != 0

theorem enabled_eq {b : Bit} (hb : b.index < 13) :
    chipset.enabled config b = (config chipset.device (pam0 + b.offset)).getLsbD b.position := by
  rw [Chipset.enabled, Chipset.pam, hpam, data_eq _ hb, pamRegOffset_eq _ hb, and_twoPow_ne_zero _ b.position_lt, pciRead8]

theorem programSection_eq {index : Nat} (hindex : index < 13) :
    chipset.programSection (enable false) (enable true) index config =
      program chipset.device (pam0 + Bit.offset ⟨index, true⟩) (BitVec.twoPow 8 (Bit.position ⟨index, true⟩)) (enable true)
        (program chipset.device (pam0 + Bit.offset ⟨index, false⟩) (BitVec.twoPow 8 (Bit.position ⟨index, false⟩))
          (enable false) config) := by
  have hwrite := data_eq pam0 (b := ⟨index, true⟩) hindex
  have hread := data_eq pam0 (b := ⟨index, false⟩) hindex
  have hoffset := pamRegOffset_eq pam0 (b := ⟨index, true⟩) hindex
  rw [PamRegisterValue.data] at hwrite hread
  rw [Chipset.programSection, Chipset.pam, hpam]
  dsimp only at hwrite hread hoffset ⊢
  rw [if_pos rfl] at hwrite
  rw [if_neg Bool.false_ne_true] at hread
  rw [hwrite, hread, hoffset]
  rfl

/-- A section programs its own two bits. -/
theorem getLsbD_programSection {b : Bit} (hb : b.index < 13) {device : Device} {offset position : Nat}
    (hat : At chipset pam0 b device offset position) :
    (chipset.programSection (enable false) (enable true) b.index config device offset).getLsbD position =
      (enable b.write).getD ((config device offset).getLsbD position) := by
  obtain ⟨index, write⟩ := b
  rw [programSection_eq hpam hb, getLsbD_program (Bit.position_lt _), getLsbD_program (Bit.position_lt _)]
  cases write with
  | true =>
      have hne : ¬At chipset pam0 ⟨index, false⟩ device offset position := fun h => by
        cases At.eq (c := ⟨index, false⟩) hb hb hat h
      rw [At] at hat hne
      rw [if_pos hat, if_neg hne]
  | false =>
      have hne : ¬At chipset pam0 ⟨index, true⟩ device offset position := fun h => by
        cases At.eq (c := ⟨index, true⟩) hb hb hat h
      rw [At] at hat hne
      rw [if_neg hne, if_pos hat]

/-- It leaves all other bits of all devices. -/
theorem getLsbD_programSection_other {index : Nat} (hindex : index < 13) {device : Device} {offset position : Nat}
    (hnone : ∀ write, ¬At chipset pam0 ⟨index, write⟩ device offset position) :
    (chipset.programSection (enable false) (enable true) index config device offset).getLsbD position =
      (config device offset).getLsbD position := by
  have htrue := hnone true
  have hfalse := hnone false
  rw [At] at htrue hfalse
  rw [programSection_eq hpam hindex, getLsbD_program (Bit.position_lt _), getLsbD_program (Bit.position_lt _),
    if_neg htrue, if_neg hfalse]

theorem enabled_programSection {index : Nat} (hindex : index < 13) {b : Bit} (hb : b.index < 13) :
    chipset.enabled (chipset.programSection (enable false) (enable true) index config) b =
      if b.index = index then (enable b.write).getD (chipset.enabled config b) else chipset.enabled config b := by
  rw [enabled_eq hpam hb, enabled_eq hpam hb]
  have hat : At chipset pam0 b chipset.device (pam0 + b.offset) b.position := ⟨rfl, rfl, rfl⟩
  by_cases hown : b.index = index
  · subst hown
    rw [if_pos rfl]
    exact getLsbD_programSection hpam hb hat
  · rw [if_neg hown]
    refine getLsbD_programSection_other hpam hindex fun write hother => hown ?_
    rw [At.eq hb hindex hat hother]

/-- The loop sets the bits of the sections that it reaches. -/
theorem enabled_programFrom {endAddress left first : Nat} (hleft : first + left = 13) {b : Bit} (hb : b.index < 13) :
    chipset.enabled (chipset.programFrom (enable false) (enable true) endAddress left first config).1 b =
      if Reached first endAddress b.index then (enable b.write).getD (chipset.enabled config b)
      else chipset.enabled config b := by
  induction left generalizing first config with
  | zero =>
      rw [if_neg fun h => absurd h.1 (by omega)]
      rfl
  | succ left ih =>
      rw [Chipset.programFrom]
      by_cases hend : (sectionAt first).Contains endAddress
      · rw [if_pos hend, enabled_programSection hpam (by omega) hb]
        exact if_congr (reached_iff_of_contains hend).symm rfl rfl
      · rw [if_neg hend, ih (by omega), enabled_programSection hpam (by omega) hb]
        by_cases hown : b.index = first
        · rw [if_pos hown, if_pos ((reached_iff_succ hend).2 (Or.inl hown)), if_neg fun h => absurd h.1 (by omega)]
        · have hiff : Reached first endAddress b.index ↔ Reached (first + 1) endAddress b.index :=
            (reached_iff_succ hend).trans (or_iff_right hown)
          rw [if_neg hown]
          exact if_congr hiff.symm rfl rfl

theorem programFrom_other {endAddress left first : Nat} (hleft : first + left = 13) {device : Device}
    {offset position : Nat} (hnone : ∀ b : Bit, b.index < 13 → ¬At chipset pam0 b device offset position) :
    ((chipset.programFrom (enable false) (enable true) endAddress left first config).1 device offset).getLsbD position =
      (config device offset).getLsbD position := by
  induction left generalizing first config with
  | zero => rfl
  | succ left ih =>
      have hfirst : first < 13 := by omega
      have hsection : (chipset.programSection (enable false) (enable true) first config device offset).getLsbD position =
          (config device offset).getLsbD position :=
        getLsbD_programSection_other hpam hfirst fun write => hnone ⟨first, write⟩ hfirst
      rw [Chipset.programFrom]
      split_ifs
      · exact hsection
      · exact (ih (by omega)).trans hsection

end Program

/-! ### Runs of requests -/

inductive Request where
  | decode (range : Range) (on : Option Bool)
  | lock (range : Range)
  | unlock (range : Range)
  | bootLock (range : Range)
  deriving DecidableEq, Repr

def Request.serve (chipset : Chipset) (config : Config) : Request → Config × Status
  | .decode range on => chipset.legacyRegion2Decode range on config
  | .lock range => chipset.legacyRegion2Lock range config
  | .unlock range => chipset.legacyRegion2Unlock range config
  | .bootLock range => legacyRegion2BootLock range config

def run (chipset : Chipset) (requests : List Request) (config : Config) : Config :=
  requests.foldl (fun config request => (request.serve chipset config).1) config

/-- For each section whether it is enabled, for reads and for writes. -/
abbrev Access := Nat → Bool → Bool

def Range.Accepted (range : Range) : Prop :=
  range.length ≠ 0 ∧ range.granularity = true ∧ PAM_BASE_ADDRESS ≤ range.start ∧ endAddress range ≤ PAM_LIMIT_ADDRESS

instance (range : Range) : Decidable range.Accepted := inferInstanceAs (Decidable (_ ∧ _ ∧ _ ∧ _))

def Range.Touches (range : Range) (index : Nat) : Prop :=
  range.Accepted ∧ Reached (startIndex range.start) (endAddress range) index

instance (range : Range) (index : Nat) : Decidable (range.Touches index) := inferInstanceAs (Decidable (_ ∧ _))

def setEnabled (range : Range) (enable : Enable) (access : Access) : Access := fun index write =>
  if range.Touches index then (enable write).getD (access index write) else access index write

/-- What a request means. -/
def Request.apply (access : Access) : Request → Access
  | .decode range on => setEnabled range (fun write => if write then none else on) access
  | .lock range => setEnabled range (fun write => if write then some false else none) access
  | .unlock range => setEnabled range (fun write => if write then some true else none) access
  | .bootLock _ => access

/-- What `GetInfo` is to say. -/
def reported (access : Access) : List Descriptor :=
  (List.range 13).flatMap fun index =>
    descriptors ⟨(sectionAt index).start, (sectionAt index).length, access index false, access index true⟩

def Chipset.access (chipset : Chipset) (config : Config) : Access := fun index write => chipset.enabled config ⟨index, write⟩

/-- A bit that belongs to no section. -/
def Chipset.Foreign (chipset : Chipset) (device : Device) (offset position : Nat) : Prop :=
  ∀ index < 13, ∀ write, device = chipset.device → offset = (chipset.pam index).pamRegOffset →
    ((chipset.pam index).data write).getLsbD position = false

theorem detectChipset_registerValues {config : Config} {chipset : Chipset} (h : detectChipset config = some chipset) :
    ∃ pam0, chipset.mRegisterValues = registerValues pam0 := by
  rw [detectChipset] at h
  split_ifs at h <;> cases h <;> exact ⟨_, rfl⟩

theorem startIndex_lt (start : Nat) : startIndex start < 13 := by
  rw [startIndex]
  cases hfind : (List.range 13).find? fun index => (sectionAt index).Contains start with
  | none => decide
  | some index => exact List.mem_range.1 (List.mem_of_find?_eq_some hfind)

theorem legacyRegionGetInfo_eq (chipset : Chipset) (config : Config) :
    chipset.legacyRegionGetInfo config = reported (chipset.access config) := by
  rw [Chipset.legacyRegionGetInfo, Chipset.legacyRegionGetInfoInternal, List.flatMap_map]
  rfl

section Runs

variable {chipset : Chipset} {pam0 : Nat} (hpam : chipset.mRegisterValues = registerValues pam0)
include hpam

theorem enabled_manipulate (range : Range) (enable : Enable) (config : Config) {index : Nat} (hindex : index < 13)
    (write : Bool) :
    chipset.access (chipset.legacyRegionManipulationInternal range (enable false) (enable true) config).1 index write =
      setEnabled range enable (chipset.access config) index write := by
  rw [setEnabled, Chipset.legacyRegionManipulationInternal]
  by_cases haccepted : range.Accepted
  · obtain ⟨hlength, hgranularity, hstart, hend⟩ := haccepted
    have hfirst := startIndex_lt range.start
    rw [if_neg (by simp [hlength, hgranularity]), if_neg (by omega)]
    refine (enabled_programFrom hpam (by omega) (b := ⟨index, write⟩) hindex).trans ?_
    exact if_congr ⟨fun h => ⟨⟨hlength, hgranularity, hstart, hend⟩, h⟩, And.right⟩ rfl rfl
  · rw [if_neg (c := range.Touches index) fun h => haccepted h.1]
    split_ifs with hinvalid hrange
    · rfl
    · rfl
    · refine absurd ⟨?_, ?_, ?_, ?_⟩ haccepted
      · exact fun hzero => hinvalid (Or.inl hzero)
      · exact Bool.eq_true_of_not_eq_false fun hfalse => hinvalid (Or.inr hfalse)
      · exact Nat.le_of_not_lt fun hlow => hrange (Or.inl hlow)
      · exact Nat.le_of_not_lt fun hhigh => hrange (Or.inr hhigh)

theorem manipulate_other (range : Range) (enable : Enable) (config : Config) {device : Device} {offset position : Nat}
    (hforeign : chipset.Foreign device offset position) :
    ((chipset.legacyRegionManipulationInternal range (enable false) (enable true) config).1 device offset).getLsbD
      position = (config device offset).getLsbD position := by
  rw [Chipset.legacyRegionManipulationInternal]
  split_ifs
  · rfl
  · rfl
  · have hfirst := startIndex_lt range.start
    refine programFrom_other hpam (by omega) fun b hb hat => ?_
    obtain ⟨hdevice, hoffset, hposition⟩ := hat
    have hclear := hforeign b.index hb b.write hdevice
      (by rw [Chipset.pam, hpam, pamRegOffset_eq _ hb]; exact hoffset)
    rw [Chipset.pam, hpam, data_eq _ hb, hposition, BitVec.getLsbD_twoPow, decide_eq_true b.position_lt,
      decide_eq_true rfl] at hclear
    cases hclear

theorem serve_access (request : Request) (config : Config) {index : Nat} (hindex : index < 13) (write : Bool) :
    chipset.access (request.serve chipset config).1 index write =
      request.apply (chipset.access config) index write := by
  cases request with
  | decode range on => exact enabled_manipulate hpam range (fun write => if write then none else on) config hindex write
  | lock range =>
      exact enabled_manipulate hpam range (fun write => if write then some false else none) config hindex write
  | unlock range =>
      exact enabled_manipulate hpam range (fun write => if write then some true else none) config hindex write
  | bootLock range =>
      rw [Request.serve, legacyRegion2BootLock]
      split_ifs <;> rfl

theorem serve_other (request : Request) (config : Config) {device : Device} {offset position : Nat}
    (hforeign : chipset.Foreign device offset position) :
    ((request.serve chipset config).1 device offset).getLsbD position = (config device offset).getLsbD position := by
  cases request with
  | decode range on => exact manipulate_other hpam range (fun write => if write then none else on) config hforeign
  | lock range =>
      exact manipulate_other hpam range (fun write => if write then some false else none) config hforeign
  | unlock range =>
      exact manipulate_other hpam range (fun write => if write then some true else none) config hforeign
  | bootLock range =>
      rw [Request.serve, legacyRegion2BootLock]
      split_ifs <;> rfl

omit hpam in
theorem apply_congr (request : Request) {access access' : Access}
    (h : ∀ index < 13, ∀ write, access index write = access' index write) {index : Nat} (hindex : index < 13)
    (write : Bool) : request.apply access index write = request.apply access' index write := by
  cases request <;> simp only [Request.apply, setEnabled, h index hindex write]

/-- A run of requests changes the bits of the sections as the requests say. -/
theorem run_access (requests : List Request) (config : Config) {access : Access}
    (haccess : ∀ index < 13, ∀ write, chipset.access config index write = access index write) :
    ∀ index < 13, ∀ write,
      chipset.access (run chipset requests config) index write = requests.foldl Request.apply access index write := by
  induction requests generalizing config access with
  | nil => exact haccess
  | cons request requests ih =>
      apply ih
      intro index hindex write
      rw [serve_access hpam request config hindex write]
      exact apply_congr request haccess hindex write

end Runs

/-- Over any run of requests to the chipset that was found, `GetInfo` says what the requests mean, and every bit of the
configuration space that belongs to no section keeps its value. -/
theorem legacyRegionGetInfo_run {config₀ : Config} {chipset : Chipset} (hdetect : detectChipset config₀ = some chipset)
    (requests : List Request) (config : Config) :
    chipset.legacyRegionGetInfo (run chipset requests config) =
        reported (requests.foldl Request.apply (chipset.access config)) ∧
      ∀ device offset position, chipset.Foreign device offset position →
        (run chipset requests config device offset).getLsbD position = (config device offset).getLsbD position := by
  obtain ⟨pam0, hpam⟩ := detectChipset_registerValues hdetect
  constructor
  · have hrun := run_access hpam requests config fun _ _ _ => rfl
    rw [legacyRegionGetInfo_eq, reported, reported]
    refine List.flatMap_congr fun index hindex => ?_
    rw [hrun index (List.mem_range.1 hindex), hrun index (List.mem_range.1 hindex)]
  · intro device offset position hforeign
    induction requests generalizing config with
    | nil => rfl
    | cons request requests ih => exact (ih _).trans (serve_other hpam request config hforeign)

/-! ### Ranges inside the region -/

def Range.Regular (range : Range) : Prop :=
  0 < range.length ∧ range.granularity = true ∧ 0xC0000 ≤ range.start ∧ range.start + range.length ≤ 0x100000

instance (range : Range) : Decidable range.Regular := inferInstanceAs (Decidable (_ ∧ _ ∧ _ ∧ _))

def MemorySection.Meets (part : MemorySection) (range : Range) : Prop :=
  part.start < range.start + range.length ∧ range.start < part.start + part.length

instance (part : MemorySection) (range : Range) : Decidable (part.Meets range) :=
  inferInstanceAs (Decidable (_ ∧ _))

theorem sectionAt_eq {index : Nat} (hindex : index < 13) :
    (sectionAt index).start = 0xC0000 + 0x4000 * index ∧
      (sectionAt index).start + (sectionAt index).length = if index = 12 then 0x100000 else 0xC4000 + 0x4000 * index := by
  interval_cases index <;> exact ⟨rfl, rfl⟩

theorem startIndex_contains {start : Nat} (hlow : 0xC0000 ≤ start) (hhigh : start < 0x100000) :
    (sectionAt (startIndex start)).Contains start := by
  rw [startIndex]
  cases hfind : (List.range 13).find? fun index => (sectionAt index).Contains start with
  | some index =>
      have hcontains := List.find?_some hfind
      exact of_decide_eq_true hcontains
  | none =>
      have hindex : min 12 ((start - 0xC0000) / 0x4000) < 13 := by omega
      refine absurd ?_ (List.find?_eq_none.1 hfind _ (List.mem_range.2 hindex))
      obtain ⟨hstart, hstop⟩ := sectionAt_eq hindex
      rw [decide_eq_true_eq, MemorySection.Contains, hstop, hstart]
      split_ifs <;> omega

theorem le_of_contains {i j a b : Nat} (hi : i < 13) (hj : j < 13) (ha : (sectionAt i).Contains a)
    (hb : (sectionAt j).Contains b) (hle : a ≤ b) : i ≤ j := by
  obtain ⟨hiStart, hiStop⟩ := sectionAt_eq hi
  obtain ⟨hjStart, hjStop⟩ := sectionAt_eq hj
  obtain ⟨hlow, -⟩ := ha
  obtain ⟨-, hhigh⟩ := hb
  rw [hiStart] at hlow
  rw [hjStop] at hhigh
  split_ifs at hhigh <;> omega

section Regular

variable {range : Range} (hregular : range.Regular)
include hregular

theorem endAddress_eq : endAddress range = range.start + range.length - 1 := by
  obtain ⟨hlength, -, -, hlimit⟩ := hregular
  rw [endAddress]
  omega

theorem Range.Regular.accepted : range.Accepted := by
  have hend := endAddress_eq hregular
  obtain ⟨hlength, hgranularity, hlow, hlimit⟩ := hregular
  refine ⟨Nat.ne_of_gt hlength, hgranularity, hlow, ?_⟩
  rw [hend, PAM_LIMIT_ADDRESS]
  omega

/-- Inside the region the requests touch the sections that meet the range. -/
theorem touches_iff {index : Nat} (hindex : index < 13) : range.Touches index ↔ (sectionAt index).Meets range := by
  have hend := endAddress_eq hregular
  have haccepted := hregular.accepted
  obtain ⟨hlength, -, hlow, hlimit⟩ := hregular
  have hfirst := startIndex_lt range.start
  obtain ⟨hstartLow, hstartHigh⟩ := startIndex_contains hlow (by omega)
  obtain ⟨hlastLow, hlastHigh⟩ : (sectionAt (startIndex (endAddress range))).Contains (endAddress range) :=
    startIndex_contains (by omega) (by omega)
  have hlast := startIndex_lt (endAddress range)
  obtain ⟨hfirstStart, hfirstStop⟩ := sectionAt_eq hfirst
  obtain ⟨hlastStart, hlastStop⟩ := sectionAt_eq hlast
  obtain ⟨hstart, hstop⟩ := sectionAt_eq hindex
  rw [Range.Touches, and_iff_right haccepted, MemorySection.Meets, hstop, hstart]
  generalize startIndex range.start = first at *
  generalize hindexLast : startIndex (endAddress range) = last at *
  constructor
  · rintro ⟨hle, hnone⟩
    have hreached : ¬(first ≤ last ∧ last < index) := fun h => hnone last h.2 h.1 ⟨hlastLow, hlastHigh⟩
    split_ifs at * <;> omega
  · rintro ⟨hmeetsLow, hmeetsHigh⟩
    refine ⟨?_, fun i hi hle hcontains => ?_⟩
    · split_ifs at * <;> omega
    · obtain ⟨hiStart, hiStop⟩ := sectionAt_eq (Nat.lt_trans hi hindex)
      obtain ⟨-, hhigh⟩ := hcontains
      rw [hiStop, if_neg (by omega)] at hhigh
      omega

end Regular

theorem programFrom_granularity (chipset : Chipset) (enable : Enable) {endAddress left first last : Nat}
    (hleft : first + left = 13) (hlast : last < 13) (hfirst : first ≤ last)
    (hcontains : (sectionAt last).Contains endAddress) (hnone : ∀ i < last, ¬(sectionAt i).Contains endAddress)
    (config : Config) :
    (chipset.programFrom (enable false) (enable true) endAddress left first config).2 =
      some (sectionAt last).length := by
  induction left generalizing first config with
  | zero => omega
  | succ left ih =>
      rw [Chipset.programFrom]
      rcases Nat.eq_or_lt_of_le hfirst with rfl | hlt
      · rw [if_pos hcontains]
      · rw [if_neg (hnone first hlt)]
        exact ih (by omega) hlt _

/-- A request for a range inside the region enables or disables the sections that meet it and no others, and tells the
length of the last one. -/
theorem legacyRegionManipulationInternal_regular {config₀ : Config} {chipset : Chipset}
    (hdetect : detectChipset config₀ = some chipset) {range : Range} (hregular : range.Regular) (enable : Enable)
    (config : Config) :
    (∃ last < 13, (sectionAt last).Contains (range.start + range.length - 1) ∧
      (chipset.legacyRegionManipulationInternal range (enable false) (enable true) config).2 =
        .success (some (sectionAt last).length)) ∧
    ∀ index < 13, ∀ write,
      chipset.access (chipset.legacyRegionManipulationInternal range (enable false) (enable true) config).1 index write =
        if (sectionAt index).Meets range then (enable write).getD (chipset.access config index write)
        else chipset.access config index write := by
  obtain ⟨pam0, hpam⟩ := detectChipset_registerValues hdetect
  constructor
  · have hend := endAddress_eq hregular
    obtain ⟨hlength, hgranularity, hlow, hlimit⟩ := hregular.accepted
    obtain ⟨hpos, -, hbase, hstop⟩ := hregular
    have hfirst := startIndex_lt range.start
    have hlast := startIndex_lt (endAddress range)
    have hstart : (sectionAt (startIndex range.start)).Contains range.start := startIndex_contains hbase (by omega)
    have hcontains : (sectionAt (startIndex (endAddress range))).Contains (endAddress range) :=
      startIndex_contains (by omega) (by omega)
    rw [← hend]
    refine ⟨_, hlast, hcontains, ?_⟩
    rw [Chipset.legacyRegionManipulationInternal, if_neg (by simp [hlength, hgranularity]), if_neg (by omega)]
    refine congrArg Status.success (programFrom_granularity chipset enable (by omega) hlast ?_ hcontains ?_ config)
    · exact le_of_contains hfirst hlast hstart hcontains (by omega)
    · exact fun i hi hcovers => absurd (le_of_contains hlast (Nat.lt_trans hi hlast) hcontains hcovers (Nat.le_refl _))
        (Nat.not_le_of_lt hi)
  · intro index hindex write
    rw [enabled_manipulate hpam range enable config hindex write, setEnabled]
    exact if_congr (touches_iff hregular hindex) rfl rfl

/-- The host bridge of a P35 with all sections off. -/
def sampleConfig : Config := fun device offset =>
  if device = ⟨0, 0, 0⟩ then
    if offset = 0 then 0x86 else if offset = 1 then 0x80 else if offset = 2 then 0xC0 else if offset = 3 then 0x29 else 0
  else 0

theorem sampleConfig_detected : detectChipset sampleConfig = some ⟨mRegisterValuesS4, ⟨0, 0, 0⟩⟩ := by decide

theorem sampleConfig_run :
    Chipset.legacyRegionGetInfo ⟨mRegisterValuesS4, ⟨0, 0, 0⟩⟩ (run ⟨mRegisterValuesS4, ⟨0, 0, 0⟩⟩
        [.unlock ⟨0xC0000, 0x10000, true⟩, .decode ⟨0xC4000, 1, true⟩ (some true), .lock ⟨0xC0000, 0x5000, true⟩]
        sampleConfig) =
      reported ([.unlock ⟨0xC0000, 0x10000, true⟩, .decode ⟨0xC4000, 1, true⟩ (some true),
        .lock ⟨0xC0000, 0x5000, true⟩].foldl Request.apply
        (Chipset.access ⟨mRegisterValuesS4, ⟨0, 0, 0⟩⟩ sampleConfig)) :=
  (legacyRegionGetInfo_run sampleConfig_detected _ _).1

theorem sampleConfig_regular :
    ∃ last < 13, (sectionAt last).Contains 0xC7FFF ∧ (Chipset.legacyRegionManipulationInternal
      ⟨mRegisterValuesS4, ⟨0, 0, 0⟩⟩ ⟨0xC0000, 0x8000, true⟩ none (some true) sampleConfig).2 =
        .success (some (sectionAt last).length) :=
  have hregular : Range.Regular ⟨0xC0000, 0x8000, true⟩ := by decide
  (legacyRegionManipulationInternal_regular sampleConfig_detected hregular
    (fun write => if write then some true else none) sampleConfig).1

end BareBoot.LegacyRegion
