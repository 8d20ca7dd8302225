import BareBoot.Fold
import BareBoot.MemoryTables
import Mathlib.Algebra.BigOperators.Group.Finset.Basic

/-! The subscripts of the arrays of slots: up to `MAX_RAM_SLOTS` slots nothing goes wrong. With more of them in the first
type 16 the controller's loop leaves the array, as does the loop over the devices where there are as many, and the loop
over them for a type 20 where none of the first ones ends in its range. -/

namespace BareBoot.MemoryTables

open Plist Fold

theorem subscript_of_lt {index : Nat} (h : index < maxRamSlots) : subscript index = some index := if_pos h

theorem subscript_of_le {index : Nat} (h : maxRamSlots ≤ index) : subscript index = none := if_neg (Nat.not_lt_of_le h)

/-! ### The modules -/

section Modules
variable (decoders : Decoders) (device : PciDevice) (gRam : MemStructure)

theorem readSlot_of_lt {i : Nat} (h : i < maxRamSlots) :
    ∃ after, readSlot decoders device gRam i = some after ∧ after.maxMemorySlots = gRam.maxMemorySlots := by
  rw [readSlot, subscript_of_lt h, Option.bind_eq_bind, Option.bind_some]
  dsimp only
  split
  · exact ⟨_, rfl, rfl⟩
  · exact ⟨_, rfl, rfl⟩

theorem readSlot_of_le {i : Nat} (h : maxRamSlots ≤ i) : readSlot decoders device gRam i = none := by
  rw [readSlot, subscript_of_le h]
  rfl

theorem readSmbIntel_of_le (h : gRam.maxMemorySlots ≤ maxRamSlots) :
    ∃ after, readSmbIntel decoders device gRam = some after ∧ after.maxMemorySlots = gRam.maxMemorySlots := by
  have hslots : ∀ i ∈ List.range (if gRam.maxMemorySlots ≤ 2 then 3 else gRam.maxMemorySlots), i < maxRamSlots := by
    intro i hi
    rw [List.mem_range] at hi
    have hthree : 3 < maxRamSlots := by decide
    split at hi <;> omega
  obtain ⟨read, hrun, hread⟩ : ∃ read, (List.range (if gRam.maxMemorySlots ≤ 2 then 3 else gRam.maxMemorySlots)).foldlM
      (readSlot decoders device) gRam = some read ∧ read.maxMemorySlots = gRam.maxMemorySlots := by
    apply foldlM_some (P := fun s : MemStructure => s.maxMemorySlots = gRam.maxMemorySlots)
    · intro i hi s hs
      obtain ⟨after, hstep, hafter⟩ := readSlot_of_lt decoders device s (hslots i hi)
      exact ⟨after, hstep, hafter.trans hs⟩
    · rfl
  rw [readSmbIntel]
  simp only [hrun, subscript_of_lt (show 1 < maxRamSlots by decide), subscript_of_lt (show 2 < maxRamSlots by decide),
    Option.bind_eq_bind, Option.bind_some]
  split
  · exact ⟨_, rfl, hread⟩
  · exact ⟨_, rfl, hread⟩

theorem readSmbIntel_of_lt (h : maxRamSlots < gRam.maxMemorySlots) : readSmbIntel decoders device gRam = none := by
  have hlarge : ¬gRam.maxMemorySlots ≤ 2 := by
    have : 2 < maxRamSlots := by decide
    omega
  have hrun : (List.range gRam.maxMemorySlots).foldlM (readSlot decoders device) gRam = none :=
    foldlM_none (P := fun _ => True) (fun _ _ _ _ _ _ => trivial) (List.mem_range.mpr h)
      (fun s _ => readSlot_of_le decoders device s le_rfl) trivial
  rw [readSmbIntel]
  simp only [if_neg hlarge, hrun]
  rfl

theorem scanSpd_of_le {devices : List PciDevice} (h : gRam.maxMemorySlots ≤ maxRamSlots) :
    ∃ after, scanSpd decoders devices gRam = some after ∧ after.maxMemorySlots = gRam.maxMemorySlots := by
  apply foldlM_some (P := fun s : MemStructure => s.maxMemorySlots = gRam.maxMemorySlots)
  · intro device _ s hs
    split
    · obtain ⟨after, hstep, hafter⟩ := readSmbIntel_of_le decoders device s (hs.trans_le h)
      exact ⟨after, hstep, hafter.trans hs⟩
    · exact ⟨s, rfl, hs⟩
  · rfl

/-- With too many slots the first controller that is found is one too many. -/
theorem scanSpd_of_lt {devices : List PciDevice} (h : maxRamSlots < gRam.maxMemorySlots) :
    scanSpd decoders devices gRam = if ∃ device ∈ devices, device.IsSmbus then none else some gRam := by
  induction devices with
  | nil => rw [if_neg (by simp)]; rfl
  | cons device devices ih =>
      rw [scanSpd, List.foldlM_cons]
      by_cases hdevice : device.IsSmbus
      · rw [if_pos hdevice, readSmbIntel_of_lt decoders device gRam h, if_pos ⟨device, List.mem_cons_self, hdevice⟩]
        rfl
      · rw [if_neg hdevice, Option.bind_eq_bind, Option.bind_some]
        simp only [List.exists_mem_cons_iff, hdevice, false_or]
        exact ih

end Modules

/-! ### The devices -/

/-- The size of a device in the new table, where no module was read. -/
def newSize (custom : CustomDevice) (device : MemoryDevice) : UInt16 :=
  if custom.inUse = true ∧ custom.size ≠ 0xFFFF then custom.size else device.size

/-- What is counted of a device: nothing of one whose size is in kilobytes. -/
def megabytes (cMemDevice : Nat → CustomDevice) (devices : List MemoryDevice) (index : Nat) : Nat :=
  match devices[index]? with
  | none => 0
  | some device =>
      if newSize (cMemDevice index) device &&& 0x8000 = 0 then (newSize (cMemDevice index) device).toNat else 0

/-- Where a device ends: at the sum of the sizes up to it, of which 16 bits are kept. -/
def endAt (cMemDevice : Nat → CustomDevice) (devices : List MemoryDevice) (index : Nat) : UInt16 :=
  if megabytes cMemDevice devices index = 0 then 0
  else UInt16.ofNat (∑ i ∈ Finset.range (index + 1), megabytes cMemDevice devices i)

/-- In turn each range takes the first slot that ends in it, one of the first `MAX_RAM_SLOTS`; a slot that is taken ends
nowhere. -/
def Placed : (Nat → UInt16) → List UInt32 → Prop
  | _, [] => True
  | memory17, endingAddress :: rest =>
      ∃ j < maxRamSlots, EndsIn (memory17 j) endingAddress ∧ (∀ i < j, ¬EndsIn (memory17 i) endingAddress) ∧
        Placed (setAt memory17 j 0) rest

section Devices
variable {cMemDevice : Nat → CustomDevice} {devices : List MemoryDevice} {s : Patch} {index : Nat}

theorem size_withSettings (custom : CustomDevice) (device : MemoryDevice) :
    (withSettings custom (withDefaults device)).size = newSize custom device := by
  unfold withSettings newSize
  by_cases huse : custom.inUse = true
  · rw [if_pos huse]
    simp [huse, withDefaults]
  · rw [if_neg huse, if_neg fun h => huse h.1]
    rfl

/-- The sums with a size at a slot. -/
def Patch.counted (s : Patch) (index : Nat) (size : UInt16) : Patch :=
  if size &&& 0x8000 = 0 then
    { s with
      totalSystemMemory := s.totalSystemMemory + size.toUInt32
      memory17 := setAt s.memory17 index (if 0 < size then (s.totalSystemMemory + size.toUInt32).toUInt16 else 0) }
  else s

theorem count_of_lt (h : index < maxRamSlots) (size : UInt16) : s.count index size = some (s.counted index size) := by
  rw [Patch.count, subscript_of_lt h, Patch.counted]
  split <;> rfl

theorem gRam_counted (size : UInt16) : (s.counted index size).gRam = s.gRam := by
  unfold Patch.counted
  split <;> rfl

theorem logDevice_of_lt (h : index < maxRamSlots) (device : MemoryDevice) :
    s.logDevice index device = some { s.log (.memoryDevice { device with handle := s.numberOfRecords }) with
      handle17 := setAt s.handle17 index s.numberOfRecords } := by
  rw [Patch.logDevice, subscript_of_lt h]
  rfl

theorem logSpd_of_lt (h : index < maxRamSlots) : ∃ after, s.logSpd index = some after ∧ after.gRam = s.gRam := by
  rw [Patch.logSpd, subscript_of_lt h, Option.bind_eq_bind, Option.bind_some]
  dsimp only
  split
  · exact ⟨_, rfl, rfl⟩
  · exact ⟨_, rfl, rfl⟩

theorem patchDevice_of_lt (h : index < maxRamSlots) :
    ∃ after, patchDevice cMemDevice devices s index = some after ∧ after.gRam = s.gRam := by
  unfold patchDevice
  split
  · exact ⟨s, rfl, rfl⟩
  · rename_i device _
    dsimp only
    split
    · simp only [subscript_of_lt h, count_of_lt h, logDevice_of_lt h, Option.bind_eq_bind, Option.bind_some]
      obtain ⟨after, hrun, hafter⟩ := logSpd_of_lt h
      exact ⟨after, hrun, hafter.trans (gRam_counted _)⟩
    · simp only [subscript_of_lt h, count_of_lt h, logDevice_of_lt h, Option.bind_eq_bind, Option.bind_some]
      exact ⟨_, rfl, gRam_counted _⟩

theorem patchDevice_of_le (h : maxRamSlots ≤ index) (hindex : index < devices.length) :
    patchDevice cMemDevice devices s index = none := by
  rw [patchDevice, List.getElem?_eq_getElem hindex]
  dsimp only
  rw [subscript_of_le h]
  split <;> rfl

theorem megabytes_of_none (h : devices[index]? = none) : megabytes cMemDevice devices index = 0 := by
  rw [megabytes, h]

theorem megabytes_counted {device : MemoryDevice} (h : devices[index]? = some device)
    (hsize : newSize (cMemDevice index) device &&& 0x8000 = 0) :
    megabytes cMemDevice devices index = (newSize (cMemDevice index) device).toNat := by
  rw [megabytes, h]
  exact if_pos hsize

theorem megabytes_uncounted {device : MemoryDevice} (h : devices[index]? = some device)
    (hsize : ¬newSize (cMemDevice index) device &&& 0x8000 = 0) : megabytes cMemDevice devices index = 0 := by
  rw [megabytes, h]
  exact if_neg hsize

theorem ofNat_toNat_size (size : UInt16) : UInt32.ofNat size.toNat = size.toUInt32 := by
  apply UInt32.toNat_inj.mp
  have hlt := size.toNat_lt
  rw [UInt32.toNat_ofNat', UInt16.toNat_toUInt32]
  exact Nat.mod_eq_of_lt (by omega)

/-- One device without modules: what is counted, and what is left as it was. -/
theorem patchDevice_counts (cMemDevice : Nat → CustomDevice) (hspd : s.gRam.spdDetected = false) (hindex : index < maxRamSlots ∨ devices.length ≤ index)
    (hfree : s.memory17 index = 0) :
    ∃ after, patchDevice cMemDevice devices s index = some after ∧ after.gRam = s.gRam ∧
      after.totalSystemMemory = s.totalSystemMemory + UInt32.ofNat (megabytes cMemDevice devices index) ∧
      after.memory17 = setAt s.memory17 index (if megabytes cMemDevice devices index = 0 then 0
        else (s.totalSystemMemory + UInt32.ofNat (megabytes cMemDevice devices index)).toUInt16) := by
  have hsame : setAt s.memory17 index 0 = s.memory17 := by
    funext i
    unfold setAt
    split_ifs with hi
    · rw [hi, hfree]
    · rfl
  cases hdevice : devices[index]? with
  | none =>
      rw [patchDevice, megabytes_of_none hdevice, hdevice, if_pos rfl, hsame]
      exact ⟨s, rfl, rfl, by simp, rfl⟩
  | some device =>
      have hlt : index < maxRamSlots := hindex.resolve_right (Nat.not_le_of_lt (List.getElem?_eq_some_iff.mp hdevice).1)
      rw [patchDevice, hdevice]
      dsimp only
      rw [if_neg (by rw [hspd]; exact Bool.false_ne_true)]
      have hnew : newSize (cMemDevice index) { device with memoryArrayHandle := s.handle16 } =
          newSize (cMemDevice index) device := rfl
      simp only [subscript_of_lt hlt, count_of_lt hlt, logDevice_of_lt hlt, Option.bind_eq_bind, Option.bind_some,
        size_withSettings, hnew]
      by_cases hsize : newSize (cMemDevice index) device &&& 0x8000 = 0
      · rw [Patch.counted, if_pos hsize, megabytes_counted hdevice hsize, ofNat_toNat_size]
        refine ⟨_, rfl, rfl, rfl, ?_⟩
        have hpos : 0 < newSize (cMemDevice index) device ↔ ¬(newSize (cMemDevice index) device).toNat = 0 := by
          rw [UInt16.lt_iff_toNat_lt]
          exact Nat.pos_iff_ne_zero
        simp only [Patch.log, hpos, ite_not]
      · rw [Patch.counted, if_neg hsize, megabytes_uncounted hdevice hsize, if_pos rfl, hsame]
        exact ⟨_, rfl, rfl, by simp [Patch.log], rfl⟩

/-- The loop over the devices without modules: where the devices end. -/
theorem patchDevices_counts (cMemDevice : Nat → CustomDevice) (hspd : s.gRam.spdDetected = false) (hdevices : devices.length ≤ maxRamSlots)
    (hmemory : s.memory17 = fun _ => 0) (htotal : s.totalSystemMemory = 0) (count : Nat) :
    ∃ after, (List.range count).foldlM (patchDevice cMemDevice devices) s = some after ∧ after.gRam = s.gRam ∧
      after.totalSystemMemory = UInt32.ofNat (∑ i ∈ Finset.range count, megabytes cMemDevice devices i) ∧
      after.memory17 = fun i => if i < count then endAt cMemDevice devices i else 0 := by
  induction count with
  | zero => exact ⟨s, rfl, rfl, htotal, hmemory⟩
  | succ count ih =>
      obtain ⟨between, hrun, hram, hsum, hends⟩ := ih
      have hindex : count < maxRamSlots ∨ devices.length ≤ count := by omega
      obtain ⟨after, hstep, hafter, htotal', hmemory'⟩ := patchDevice_counts cMemDevice (by rw [hram, hspd]) hindex
        (by rw [hends]; exact if_neg (lt_irrefl count))
      have hsum' : after.totalSystemMemory = UInt32.ofNat (∑ i ∈ Finset.range (count + 1), megabytes cMemDevice devices i) := by
        rw [htotal', hsum, Finset.sum_range_succ, UInt32.ofNat_add]
      refine ⟨after, ?_, hafter.trans hram, hsum', ?_⟩
      · rw [List.range_succ, List.foldlM_append, hrun, Option.bind_eq_bind, Option.bind_some, List.foldlM_cons, hstep]
        rfl
      · rw [hmemory', ← htotal', hsum', hends]
        funext i
        simp only [setAt]
        rcases Nat.lt_trichotomy i count with hlt | rfl | hgt
        · rw [if_neg hlt.ne, if_pos hlt, if_pos (by omega)]
        · rw [if_pos rfl, if_pos (Nat.lt_succ_self _), endAt]
          split
          · rfl
          · simp
        · rw [if_neg hgt.ne', if_neg (by omega), if_neg (by omega)]

end Devices

/-! ### The mapped addresses -/

section Mapped
variable (memory17 : Nat → UInt16) (endingAddress : UInt32) {s : Patch} {handle19 : UInt16}

theorem findDevice_inside (left j : Nat) (h : j + left ≤ maxRamSlots) :
    ∃ found, findDevice memory17 endingAddress left j = some found := by
  induction left generalizing j with
  | zero => exact ⟨none, rfl⟩
  | succ left ih =>
      rw [findDevice, subscript_of_lt (by omega), Option.bind_eq_bind, Option.bind_some]
      split
      · exact ⟨_, rfl⟩
      · exact ih (j + 1) (by omega)

/-- With more slots than there is room for, the loop ends at the first slot that ends in the range. -/
theorem findDevice_eq (left j : Nat) (h : maxRamSlots < j + left) (hj : j ≤ maxRamSlots) :
    (∃ k < maxRamSlots, j ≤ k ∧ EndsIn (memory17 k) endingAddress ∧ (∀ i, j ≤ i → i < k → ¬EndsIn (memory17 i) endingAddress) ∧
        findDevice memory17 endingAddress left j = some (some k)) ∨
      (∀ i, j ≤ i → i < maxRamSlots → ¬EndsIn (memory17 i) endingAddress) ∧
        findDevice memory17 endingAddress left j = none := by
  induction left generalizing j with
  | zero => omega
  | succ left ih =>
      rcases Nat.eq_or_lt_of_le hj with rfl | hlt
      · refine Or.inr ⟨fun i hi hlt => absurd hlt (Nat.not_lt_of_le hi), ?_⟩
        rw [findDevice, subscript_of_le le_rfl]
        rfl
      · rw [findDevice, subscript_of_lt hlt, Option.bind_eq_bind, Option.bind_some]
        by_cases hends : EndsIn (memory17 j) endingAddress
        · rw [if_pos hends]
          exact Or.inl ⟨j, hlt, le_rfl, hends, fun i hi hi' => absurd hi (Nat.not_le_of_lt hi'), rfl⟩
        · rw [if_neg hends]
          have hfirst : ∀ i, j ≤ i → i ≠ j → j + 1 ≤ i := fun i hi hne => by omega
          rcases ih (j + 1) (by omega) hlt with ⟨k, hk, hle, hfound, hbefore, hrun⟩ | ⟨hnone, hrun⟩
          · refine Or.inl ⟨k, hk, by omega, hfound, ?_, hrun⟩
            intro i hi hik
            by_cases heq : i = j
            · rwa [heq]
            · exact hbefore i (hfirst i hi heq) hik
          · refine Or.inr ⟨?_, hrun⟩
            intro i hi hik
            by_cases heq : i = j
            · rwa [heq]
            · exact hnone i (hfirst i hi heq) hik

theorem patchMapped_inside (mapped : MemoryDeviceMappedAddress) (h : s.gRam.maxMemorySlots ≤ maxRamSlots) :
    ∃ after, patchMapped handle19 s mapped = some after ∧ after.gRam = s.gRam := by
  unfold patchMapped
  split
  · exact ⟨s, rfl, rfl⟩
  · obtain ⟨found, hfound⟩ := findDevice_inside s.memory17 mapped.endingAddress s.gRam.maxMemorySlots 0 (by rwa [Nat.zero_add])
    rw [hfound, Option.bind_eq_bind, Option.bind_some]
    cases found with
    | none => exact ⟨_, rfl, rfl⟩
    | some j => exact ⟨_, rfl, rfl⟩

/-- The ends of the ranges that are looked at. -/
def rangeEnds (mapped : List MemoryDeviceMappedAddress) : List UInt32 :=
  (mapped.filter fun original => 2 ≤ original.endingAddress).map MemoryDeviceMappedAddress.endingAddress

/-- The loop over the mapped addresses, with more slots than there is room for. -/
theorem patchMappeds_iff (mapped : List MemoryDeviceMappedAddress) (h : maxRamSlots < s.gRam.maxMemorySlots) :
    (∃ after, mapped.foldlM (patchMapped handle19) s = some after) ↔ Placed s.memory17 (rangeEnds mapped) := by
  induction mapped generalizing s with
  | nil => exact iff_of_true ⟨s, rfl⟩ trivial
  | cons original mapped ih =>
      rw [List.foldlM_cons, patchMapped]
      by_cases hsmall : original.endingAddress < 2
      · have hskip : rangeEnds (original :: mapped) = rangeEnds mapped := by
          rw [rangeEnds, List.filter_cons_of_neg (by simpa using hsmall), rangeEnds]
        rw [if_pos hsmall, hskip, Option.bind_eq_bind, Option.bind_some, ih h]
      · have hends : rangeEnds (original :: mapped) = original.endingAddress :: rangeEnds mapped := by
          rw [rangeEnds, List.filter_cons_of_pos (by simpa using hsmall), List.map_cons, rangeEnds]
        rw [if_neg hsmall, hends, Placed]
        rcases findDevice_eq s.memory17 original.endingAddress s.gRam.maxMemorySlots 0
          (by rwa [Nat.zero_add]) (Nat.zero_le _) with ⟨k, hk, -, hfound, hbefore, hrun⟩ | ⟨hnone, hrun⟩
        · have hplaced : (∃ j < maxRamSlots, EndsIn (s.memory17 j) original.endingAddress ∧
              (∀ i < j, ¬EndsIn (s.memory17 i) original.endingAddress) ∧
              Placed (setAt s.memory17 j 0) (rangeEnds mapped)) ↔ Placed (setAt s.memory17 k 0) (rangeEnds mapped) := by
            constructor
            · rintro ⟨j, -, hj, hj', hrest⟩
              rcases Nat.lt_trichotomy j k with hlt | rfl | hgt
              · exact absurd hj (hbefore j (Nat.zero_le j) hlt)
              · exact hrest
              · exact absurd hfound (hj' k hgt)
            · intro hrest
              exact ⟨k, hk, hfound, fun i hi => hbefore i (Nat.zero_le i) hi, hrest⟩
          rw [hrun, hplaced]
          exact ih (s := { s.log _ with memory17 := setAt s.memory17 k 0 }) h
        · rw [hrun]
          refine iff_of_false ?_ ?_
          · rintro ⟨after, hafter⟩
            cases hafter
          · rintro ⟨j, hj, hfound, -⟩
            exact hnone j (Nat.zero_le j) hj hfound

theorem Placed.congr {m m' : Nat → UInt16} {ends : List UInt32} (hsame : ∀ i < maxRamSlots, m i = m' i) (h : Placed m ends) :
    Placed m' ends := by
  induction ends generalizing m m' with
  | nil => trivial
  | cons endingAddress ends ih =>
      obtain ⟨j, hj, hends, hbefore, hrest⟩ := h
      refine ⟨j, hj, hsame j hj ▸ hends, ?_, ih ?_ hrest⟩
      · intro i hi
        rw [← hsame i (hi.trans hj)]
        exact hbefore i hi
      · intro i hi
        simp only [setAt, hsame i hi]

end Mapped

/-! ### The property -/

/-- The first array has no more slots than there is room for; or there is no controller to read modules with, no more
devices than slots, and room for every range that is looked at. -/
def SlotsInside (input : Input) : Prop :=
  ∀ array, input.arrays[0]? = some array → memorySlots array ≤ maxRamSlots ∨
    (¬(input.spdScan = true ∧ ∃ device ∈ input.pciDevices, device.IsSmbus) ∧ input.devices.length ≤ maxRamSlots ∧
      Placed (endAt input.cMemDevice input.devices) (rangeEnds (input.deviceMapped.take (memorySlots array * 2))))

theorem readModules_of_le (input : Input) {gRam : MemStructure} (h : gRam.maxMemorySlots ≤ maxRamSlots) :
    ∃ after, readModules input gRam = some after ∧ after.maxMemorySlots = gRam.maxMemorySlots := by
  unfold readModules
  split
  · exact scanSpd_of_le _ _ h
  · exact ⟨gRam, rfl, rfl⟩

/-- With too many slots modules are not read, or the run ends there. -/
theorem readModules_of_lt {input : Input} {gRam : MemStructure} (h : maxRamSlots < gRam.maxMemorySlots) :
    readModules input gRam =
      if input.spdScan = true ∧ ∃ device ∈ input.pciDevices, device.IsSmbus then none else some gRam := by
  unfold readModules
  by_cases hscan : input.spdScan = true
  · rw [if_pos hscan, scanSpd_of_lt _ _ h]
    simp only [hscan, true_and]
  · rw [if_neg hscan, if_neg fun hboth => hscan hboth.1]

theorem patchStructures_of_le (input : Input) {s : Patch} (h : s.gRam.maxMemorySlots ≤ maxRamSlots) :
    ∃ after, patchStructures input s = some after := by
  obtain ⟨between, hdevices, hbetween⟩ : ∃ between, (List.range s.gRam.maxMemorySlots).foldlM
      (patchDevice input.cMemDevice input.devices) s = some between ∧ between.gRam = s.gRam := by
    apply foldlM_some (P := fun t : Patch => t.gRam = s.gRam)
    · intro index hindex t ht
      obtain ⟨after, hstep, hafter⟩ := patchDevice_of_lt (s := t) ((List.mem_range.mp hindex).trans_le h)
      exact ⟨after, hstep, hafter.trans ht⟩
    · rfl
  obtain ⟨after, hmapped, -⟩ : ∃ after, (input.deviceMapped.take (between.gRam.maxMemorySlots * 2)).foldlM
      (patchMapped (mappedRange input.mapped between).handle)
      (between.log (.memoryArrayMappedAddress (mappedRange input.mapped between))) = some after ∧
        after.gRam = s.gRam := by
    apply foldlM_some (P := fun t : Patch => t.gRam = s.gRam)
    · intro mapped _ t ht
      obtain ⟨after, hstep, hafter⟩ := patchMapped_inside (s := t) mapped (by rw [ht]; exact h)
      exact ⟨after, hstep, hafter.trans ht⟩
    · exact hbetween
  exact ⟨after, by rw [patchStructures, hdevices, Option.bind_eq_bind, Option.bind_some, hmapped]⟩

theorem patchStructures_of_lt (input : Input) {s : Patch} (h : maxRamSlots < s.gRam.maxMemorySlots)
    (hspd : s.gRam.spdDetected = false) (hmemory : s.memory17 = fun _ => 0) (htotal : s.totalSystemMemory = 0) :
    (∃ after, patchStructures input s = some after) ↔ input.devices.length ≤ maxRamSlots ∧
      Placed (endAt input.cMemDevice input.devices) (rangeEnds (input.deviceMapped.take (s.gRam.maxMemorySlots * 2))) := by
  rw [patchStructures]
  by_cases hdevices : input.devices.length ≤ maxRamSlots
  · obtain ⟨between, hrun, hgRam, -, hends⟩ := patchDevices_counts input.cMemDevice hspd hdevices hmemory htotal
      s.gRam.maxMemorySlots
    have hsame : ∀ i < maxRamSlots, between.memory17 i = endAt input.cMemDevice input.devices i := by
      intro i hi
      rw [hends]
      exact if_pos (hi.trans h)
    rw [hrun, Option.bind_eq_bind, Option.bind_some, and_iff_right hdevices]
    simp only [hgRam]
    rw [patchMappeds_iff _ (by exact hgRam ▸ h)]
    constructor
    · exact Placed.congr hsame
    · exact Placed.congr fun i hi => (hsame i hi).symm
  · have hlast : maxRamSlots < input.devices.length := Nat.lt_of_not_le hdevices
    have hrun : (List.range s.gRam.maxMemorySlots).foldlM (patchDevice input.cMemDevice input.devices) s = none :=
      foldlM_none (P := fun _ => True) (fun _ _ _ _ _ _ => trivial) (List.mem_range.mpr h)
        (fun t _ => patchDevice_of_le le_rfl hlast) trivial
    rw [hrun]
    refine iff_of_false ?_ fun hboth => hdevices hboth.1
    rintro ⟨after, hafter⟩
    cases hafter

/-- Every subscript is a slot exactly under this condition. -/
theorem patchMemoryTables_inside_iff (input : Input) :
    (∃ after, patchMemoryTables input = some after) ↔ SlotsInside input := by
  unfold patchMemoryTables SlotsInside
  cases harray : input.arrays[0]? with
  | none =>
      refine iff_of_true ⟨_, rfl⟩ ?_
      intro array h
      cases h
  | some array =>
      have hslots : (countedRam input array).maxMemorySlots = memorySlots array := rfl
      simp only [Option.some_inj, forall_eq']
      by_cases hfits : memorySlots array ≤ maxRamSlots
      · refine iff_of_true ?_ (Or.inl hfits)
        obtain ⟨gRam, hread, hgRam⟩ := readModules_of_le input (hslots.trans_le hfits)
        rw [hread, Option.bind_eq_bind, Option.bind_some]
        exact patchStructures_of_le input (s := input.withArray array gRam) ((hgRam.trans hslots).trans_le hfits)
      · have hlarge : maxRamSlots < memorySlots array := Nat.lt_of_not_le hfits
        rw [or_iff_right hfits, readModules_of_lt (hslots ▸ hlarge)]
        by_cases hread : input.spdScan = true ∧ ∃ device ∈ input.pciDevices, device.IsSmbus
        · rw [if_pos hread]
          refine iff_of_false ?_ fun hboth => hboth.1 hread
          rintro ⟨after, hafter⟩
          cases hafter
        · rw [if_neg hread, Option.bind_eq_bind, Option.bind_some, and_iff_right hread]
          exact patchStructures_of_lt input (s := input.withArray array (countedRam input array)) hlarge rfl rfl rfl

/-- Nine slots of a gigabyte each, without modules that can be read. -/
def nineSlots : Input where
  arrays := [⟨0x1000, 9⟩]
  devices := List.replicate 9 ⟨0x1100, 0x1000, 1024, 1333, 24, [], [], [], [], []⟩
  mapped := []
  deviceMapped := []
  spdScan := false
  cMemDevice _ := {}
  decoders := ⟨fun _ spd => (spd, []), fun _ spd _ => (spd, []), fun _ => [], fun _ => 800⟩
  pciDevices := []
  numberOfRecords := 5
  handle17 _ := 0

theorem nineSlots_outside : ¬∃ after, patchMemoryTables nineSlots = some after := by
  have hnone : (patchMemoryTables nineSlots).isNone = true := by decide +kernel
  rintro ⟨after, hafter⟩
  rw [hafter] at hnone
  cases hnone

end BareBoot.MemoryTables
