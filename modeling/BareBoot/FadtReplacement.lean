import BareBoot.NewXsdt
import BareBoot.AcpiRegistry
import Mathlib.Data.List.Find

/-! The FADT step of `PatchACPI` writes the new FADT into the first entry of both roots. Which FADT that
replaces depends on where the firmware listed its own. -/

namespace BareBoot.Acpi

/-! ### The new FADT stays in its page -/

section Page

variable {b c : Block}

/-- No write between the two has left the object. -/
structure Kept (b c : Block) : Prop where
  size : c.size = b.size
  overrun : c.overrun = b.overrun

theorem Kept.refl (b : Block) : Kept b b := ⟨rfl, rfl⟩

theorem Kept.store (h : Kept b c) (width off : Nat) (value : Nat) (hoff : off + width ≤ b.size) :
    Kept b (c.store width off value) :=
  ⟨h.size, (Block.overrun_store (h.size ▸ hoff)).trans h.overrun⟩

theorem Kept.write (h : Kept b c) (off count : Nat) (src : Nat → UInt8) (hoff : off + count ≤ b.size) :
    Kept b (c.write off count src) :=
  ⟨h.size, (Block.overrun_write (h.size ▸ hoff)).trans h.overrun⟩

theorem Kept.checksum (h : Kept b c) (field count : Nat) (hfield : field < b.size) :
    Kept b (c.checksum field count) :=
  ⟨h.size, (Block.overrun_checksum (h.size ▸ hfield)).trans h.overrun⟩

theorem Kept.ite (p : Prop) [Decidable p] {c' : Block} (h : Kept b c) (h' : Kept b c') : Kept b (if p then c else c') := by
  split_ifs
  · exact h
  · exact h'

theorem Kept.extraBlock (h : Kept b c) {off : Nat} (hoff : off + 12 ≤ b.size) (bitWidth access old : Nat) :
    Kept b (Acpi.extraBlock off bitWidth access old c) := by
  unfold Acpi.extraBlock storeAddress
  repeat' apply Kept.store
  · exact h
  all_goals omega

theorem Kept.plainFields (h : Kept b c) (hsize : 0xF4 ≤ b.size) : Kept b (Acpi.plainFields c) := by
  unfold Acpi.plainFields
  repeat' apply Kept.store
  · exact h
  all_goals omega

theorem Kept.resetSupported (h : Kept b c) (hsize : 0xF4 ≤ b.size) : Kept b (Acpi.resetSupported c) :=
  h.store _ _ _ (by omega)

theorem Kept.resetRegister (h : Kept b c) (hsize : 0xF4 ≤ b.size) (settings : Settings) :
    Kept b (Acpi.resetRegister settings c) := by
  have hplain : Kept b ((((c.store 1 116 1).store 1 117 8).store 1 118 0).store 1 119 1) := by
    repeat' apply Kept.store
    · exact h
    all_goals omega
  have haddr := Kept.ite (settings.resetAddr = 0) (hplain.store 8 120 0x64 (by omega)) hplain
  exact Kept.ite _ (haddr.store _ _ _ (by omega)) haddr

theorem Kept.upgradeFadt (h : Kept b c) (hsize : 0xF4 ≤ b.size) (settings : Settings) :
    Kept b (Acpi.upgradeFadt settings c) := by
  unfold Acpi.upgradeFadt
  repeat' apply Kept.extraBlock
  · exact ((h.plainFields hsize).resetSupported hsize).resetRegister hsize settings
  all_goals omega

theorem Kept.setDsdt (h : Kept b c) (hsize : 0xF4 ≤ b.size) (dsdt : Nat) : Kept b (Acpi.setDsdt c dsdt) :=
  (h.store _ _ _ (by omega)).store _ _ _ (by omega)

theorem Kept.fadtFields (h : Kept b c) (hsize : 0xF4 ≤ b.size) (settings : Settings) (biosDsdt : Nat) :
    Kept b (Acpi.fadtFields settings biosDsdt c) := by
  have hid := h.write 10 6 apple (by omega)
  have hprofile := Kept.ite (settings.pmProfile ≠ 0)
    (hid.store 1 45 settings.pmProfile (by omega)) hid
  have hreset := ((hprofile.resetSupported hsize).store 8 120 settings.resetAddr (by omega)).store
    1 128 settings.resetVal (by omega)
  exact (Kept.ite (settings.resetAddr ≠ 0 ∧ settings.resetVal ≠ 0) hreset hprofile).setDsdt hsize biosDsdt

theorem Kept.facsFields (h : Kept b c) (hsize : 0xF4 ≤ b.size) (facs : Nat) : Kept b (Acpi.facsFields facs c) := by
  have hctrl := Kept.ite (facs ≠ 0) (h.store 4 36 facs (by omega)) h
  unfold Acpi.facsFields
  apply Kept.ite
  · exact hctrl.store _ _ _ (by omega)
  · exact Kept.ite _ (hctrl.store _ _ _ (by omega)) hctrl

/-- The new FADT fits its page exactly when the old one does. -/
theorem newFadt_within (settings : Settings) (biosDsdt : Nat) (fadt : Block) (pages : Pages) :
    (newFadt settings biosDsdt fadt pages).size = 4096 ∧
      ((newFadt settings biosDsdt fadt pages).overrun = false ↔ length fadt ≤ 4096) := by
  have hcopy : ((Block.fresh 4096 pages.content).write 0 (length fadt) fadt.byte).overrun = false ↔ length fadt ≤ 4096 := by
    rw [Block.overrun_write_iff, Nat.zero_add]
    change (false = false ∧ (0 < length fadt → length fadt ≤ 4096)) ↔ _
    constructor
    · rintro ⟨-, h⟩
      by_cases hpos : 0 < length fadt
      · exact h hpos
      · omega
    · exact fun h => ⟨rfl, fun _ => h⟩
  have hsize : 0xF4 ≤ ((Block.fresh 4096 pages.content).write 0 (length fadt) fadt.byte).size := by
    change 0xF4 ≤ 4096
    decide
  have hkept := (Kept.ite
    (((Block.fresh 4096 pages.content).write 0 (length fadt) fadt.byte).word 1 8 = 1 ∨
      length ((Block.fresh 4096 pages.content).write 0 (length fadt) fadt.byte) < 0xF4)
    ((Kept.refl _).upgradeFadt hsize settings) (Kept.refl _)).fadtFields hsize settings biosDsdt
  exact ⟨hkept.size, by rw [← hcopy, ← hkept.overrun]; rfl⟩

end Page

/-! ### The step on the roots -/

section Roots

variable {w : Nat} {b c : Block}

/-- The parts of a root that say what it lists. -/
def Listing (a : Nat) : Prop := 4 ≤ a ∧ a < 8 ∨ 36 ≤ a

theorem entry_of_agrees (h : b.Agrees Listing c) : entry w c = entry w b := by
  funext i
  exact h.word fun k _ => Or.inr (by omega)

theorem length_of_agrees (h : b.Agrees Listing c) : length c = length b :=
  h.word fun k hk => Or.inl (by omega)

theorem entries_of_agrees (h : b.Agrees Listing c) : entries w c = entries w b := by
  rw [entries, entries, entry_of_agrees h, length_of_agrees h]

/-- The first entry written: the others stay. -/
theorem entries_setFirst (hw : 0 < w) {first value : Nat} {rest : List Nat}
    (hlen : length b = 36 + w * (entries w b).length) (hentries : entries w b = first :: rest)
    (hvalue : value < 256 ^ w) :
    length (b.store w 36 value) = length b ∧ entries w (b.store w 36 value) = value :: rest := by
  have hkept : length (b.store w 36 value) = length b := Block.word_store_outside (Or.inl (by decide))
  have hold := entries_of_length hw hlen
  have hnew := entries_of_length (b := b.store w 36 value) hw (hkept.trans hlen)
  rw [hentries, List.length_cons, segment_succ] at hold hnew
  have hentry : entry w (b.store w 36 value) = Function.update (entry w b) 0 value := by
    have := entry_store (w := w) (b := b) 0 value
    rwa [Nat.mul_zero, Nat.add_zero, Nat.mod_eq_of_lt hvalue] at this
  have hrest : segment (Function.update (entry w b) 0 value) (0 + 1) rest.length =
      segment (entry w b) (0 + 1) rest.length := by
    apply segment_congr
    intro i _
    exact Function.update_of_ne (by omega) _ _
  rw [hentry, Function.update_self, hrest, ← (List.cons.inj hold).2] at hnew
  exact ⟨hkept, hnew⟩

theorem lists_setFirst (hw : 0 < w) {first value : Nat} {rest tables : List Nat} (hlists : Lists w b tables)
    (hentries : entries w b = first :: rest) (hvalue : value < 256 ^ w) (hnull : value ≠ 0) :
    Lists w (b.store w 36 value) (value :: rest.filter listed) := by
  obtain ⟨hkept, hnew⟩ := entries_setFirst hw hlists.counted hentries hvalue
  constructor
  · rw [hkept, hlists.counted, hnew, hentries, List.length_cons, List.length_cons]
  · rw [hkept, Block.size_store]
    exact hlists.within
  · rw [hnew, List.filter_cons_of_pos (by simp [listed, hnull])]

theorem Lists.of_agrees {tables : List Nat} (h : Lists w b tables) (hagrees : b.Agrees Listing c)
    (hsize : c.size = b.size) : Lists w c tables := by
  constructor
  · rw [length_of_agrees hagrees, entries_of_agrees hagrees]
    exact h.counted
  · rw [length_of_agrees hagrees, hsize]
    exact h.within
  · rw [entries_of_agrees hagrees]
    exact h.holds

theorem Lists.unique {tables tables' : List Nat} (h : Lists w b tables) (h' : Lists w b tables') : tables = tables' :=
  h.holds.symm.trans h'.holds

end Roots

/-! ### What the firmware left -/

/-- The tables of the firmware as `PatchACPI` finds them, and pages handed out as documented. -/
structure Firmware (env : Environment) (memory : Heap) (rsdp rsdt : Block) (tables : List Nat) (xp : Pages) : Prop where
  found : findRsdPointer env.configurationTable 0 ≠ 0
  hrsdp : memory (findRsdPointer env.configurationTable 0) = some rsdp
  hrsdt : memory (rsdp.word 4 16) = some rsdt
  apart : rsdp.word 4 16 ≠ findRsdPointer env.configurationTable 0
  unlisted : findRsdPointer env.configurationTable 0 ∉ tables
  lists : Lists 4 rsdt tables
  live : ∀ address ∈ tables, ∃ table, memory address = some table
  whole : ∀ a b, memory a = some b → b.overrun = false
  null : memory 0 = none
  pointers : ∀ address ∈ tables, ∀ fadt, memory address = some fadt → signature fadt = fadtSignature →
    firmwareCtrl fadt = 0 ∨ ∃ facs, memory (firmwareCtrl fadt) = some facs
  xsdtPages : env.xsdtPages = .ok xp
  xsdtFresh : memory xp.address = none ∧ xp.address ≠ 0 ∧ xp.address < 2 ^ 32
  fadtFresh : ∀ fp, env.fadtPages = .ok fp →
    memory fp.address = none ∧ fp.address ≠ 0 ∧ fp.address < 2 ^ 32 ∧ fp.address ≠ xp.address
  dsdtFresh : ∀ dp, env.dsdtPages = .ok dp → memory dp.address = none ∧ dp.address ≠ 0 ∧ dp.address ≠ xp.address ∧
    ∀ fp, env.fadtPages = .ok fp → dp.address ≠ fp.address

section Open

variable {env : Environment} {memory : Heap} {rsdp rsdt : Block} {tables : List Nat} {xp : Pages}

def openedMemory (env : Environment) (memory : Heap) (rsdp rsdt : Block) (xp : Pages) : Heap :=
  (memory.set xp.address (newXsdt rsdt xp)).set (findRsdPointer env.configurationTable 0) (newRsdp rsdp xp)

/-- The state at the scan. -/
def opened (env : Environment) (memory : Heap) (rsdp rsdt : Block) (xp : Pages) : Tables :=
  ⟨rsdp.word 4 16, xp.address, openedMemory env memory rsdp rsdt xp⟩

@[simp] theorem opened_rsdt : (opened env memory rsdp rsdt xp).rsdt = rsdp.word 4 16 := rfl
@[simp] theorem opened_xsdt : (opened env memory rsdp rsdt xp).xsdt = xp.address := rfl
@[simp] theorem opened_memory : (opened env memory rsdp rsdt xp).memory = openedMemory env memory rsdp rsdt xp := rfl

theorem newRsdp_within (h : rsdp.overrun = false) : (newRsdp rsdp xp).overrun = false ↔ 32 ≤ rsdp.size := by
  rw [newRsdp, Block.overrun_checksum_iff, Block.overrun_store_iff (by decide), Block.size_store, h]
  constructor
  · rintro ⟨⟨-, hsize⟩, -⟩
    exact hsize
  · exact fun hsize => ⟨⟨rfl, hsize⟩, by omega⟩

theorem Firmware.ne_of_live (fw : Firmware env memory rsdp rsdt tables xp) {a : Nat} {b : Block}
    (h : memory a = some b) : a ≠ 0 ∧ a ≠ xp.address ∧ (∀ fp, env.fadtPages = .ok fp → a ≠ fp.address) ∧
      ∀ dp, env.dsdtPages = .ok dp → a ≠ dp.address := by
  have hne : ∀ c, memory c = none → a ≠ c := by
    rintro c hc rfl
    rw [hc] at h
    cases h
  exact ⟨hne 0 fw.null, hne _ fw.xsdtFresh.1, fun fp hfp => hne _ (fw.fadtFresh fp hfp).1,
    fun dp hdp => hne _ (fw.dsdtFresh dp hdp).1⟩

theorem Firmware.ne_of_listed (fw : Firmware env memory rsdp rsdt tables xp) {a : Nat} (h : a ∈ tables) :
    a ≠ 0 ∧ a ≠ xp.address ∧ (∀ fp, env.fadtPages = .ok fp → a ≠ fp.address) ∧
      a ≠ findRsdPointer env.configurationTable 0 := by
  obtain ⟨b, hb⟩ := fw.live a h
  obtain ⟨hnull, hx, hf, -⟩ := fw.ne_of_live hb
  exact ⟨hnull, hx, hf, fun heq => fw.unlisted (heq ▸ h)⟩

/-- The tables are found in memory as before. -/
theorem Firmware.openedMemory_table (fw : Firmware env memory rsdp rsdt tables xp) {a : Nat} (h : a ∈ tables) :
    openedMemory env memory rsdp rsdt xp a = memory a := by
  obtain ⟨-, hx, -, hr⟩ := fw.ne_of_listed h
  rw [openedMemory, Heap.set_other hr, Heap.set_other hx]

theorem Firmware.openedMemory_xsdt (fw : Firmware env memory rsdp rsdt tables xp) :
    openedMemory env memory rsdp rsdt xp xp.address = some (newXsdt rsdt xp) := by
  rw [openedMemory, Heap.set_other (fw.ne_of_live fw.hrsdp).2.1.symm, Heap.set_same]

/-- The pages of the XSDT and the RSDP written. -/
theorem Firmware.openTables_put (fw : Firmware env memory rsdp rsdt tables xp) :
    openTables env memory = (memory.put xp.address (newXsdt rsdt xp)).bind fun built =>
      (built.put (findRsdPointer env.configurationTable 0) (newRsdp rsdp xp)).bind fun written =>
        (scanXsdt fadtSignature ⟨rsdp.word 4 16, xp.address, written⟩).bind fun found =>
          found.bind fun entryPtr => (written xp.address).bind fun xsdt =>
            if xsdt.word 8 entryPtr = 0 then some (.error .notFound)
            else some (.ok (⟨rsdp.word 4 16, xp.address, written⟩, xsdt.word 8 entryPtr)) := by
  rw [openTables]
  simp only [if_neg fw.found]
  rw [fw.hrsdp]
  simp only [Option.bind_eq_bind, Option.bind_some]
  rw [fw.xsdtPages]
  simp only []
  rw [fw.hrsdt, Option.bind_some]

/-- The scan goes over the listed tables in their order. -/
theorem Firmware.scanXsdt_eq (fw : Firmware env memory rsdp rsdt tables xp) (hroom : 36 + 8 * tables.length ≤ 4096) :
    ∃ found, scanXsdt fadtSignature (opened env memory rsdp rsdt xp) = some found ∧
      found.map (fun entryPtr => (newXsdt rsdt xp).word 8 entryPtr) =
        tables.find? (hasSignature fadtSignature memory) := by
  obtain ⟨hover, hlists⟩ := newXsdt_spec xp fw.lists.counted fw.lists.holds
  obtain ⟨hxsdt, hentries⟩ := hlists hroom
  have hcount : entryCount 8 (newXsdt rsdt xp) = tables.length := by
    rw [entryCount_of_length (by decide) hxsdt.counted, hentries]
  have hsegment : segment (entry 8 (newXsdt rsdt xp)) 0 tables.length = tables := by
    have := entries_of_length (by decide) hxsdt.counted
    rwa [hentries, eq_comm] at this
  obtain ⟨found, hscan, hfound⟩ := scanEntries_spec fadtSignature (newXsdt rsdt xp)
    (openedMemory env memory rsdp rsdt xp) tables.length 0 (by
      rw [hsegment]
      intro a ha
      rw [fw.openedMemory_table ha]
      exact fw.live a ha)
  refine ⟨found, ?_, ?_⟩
  · rw [scanXsdt, opened]
    simp only []
    rw [fw.openedMemory_xsdt, Option.bind_eq_bind, Option.bind_some, hcount]
    exact hscan
  · rw [hfound, hsegment]
    apply List.find?_congr
    intro a ha
    rw [hasSignature, hasSignature, fw.openedMemory_table ha]

theorem Firmware.openTables_eq (fw : Firmware env memory rsdp rsdt tables xp)
    (hroom : 36 + 8 * tables.length ≤ 4096) (hsize : 32 ≤ rsdp.size) :
    openTables env memory =
      (tables.find? (hasSignature fadtSignature memory)).map fun old => .ok (opened env memory rsdp rsdt xp, old) := by
  obtain ⟨hover, -⟩ := newXsdt_spec xp fw.lists.counted fw.lists.holds
  obtain ⟨found, hscan, hfound⟩ := fw.scanXsdt_eq hroom
  have hput : memory.put xp.address (newXsdt rsdt xp) = some (memory.set xp.address (newXsdt rsdt xp)) :=
    Heap.put_eq_some.mpr ⟨hover.mpr hroom, rfl⟩
  have hput' : (memory.set xp.address (newXsdt rsdt xp)).put (findRsdPointer env.configurationTable 0)
      (newRsdp rsdp xp) = some (openedMemory env memory rsdp rsdt xp) :=
    Heap.put_eq_some.mpr ⟨(newRsdp_within (fw.whole _ _ fw.hrsdp)).mpr hsize, rfl⟩
  rw [opened] at hscan
  rw [fw.openTables_put, hput, Option.bind_some, hput', Option.bind_some, hscan, Option.bind_some, ← hfound]
  cases found with
  | none => rw [Option.bind_none, Option.map_none, Option.map_none]
  | some entryPtr =>
      have hmem : (newXsdt rsdt xp).word 8 entryPtr ∈ tables := List.mem_of_find?_eq_some hfound.symm
      rw [Option.bind_some, fw.openedMemory_xsdt, Option.bind_some, if_neg (fw.ne_of_listed hmem).1, Option.map_some,
        Option.map_some, opened]

/-- A page too small for the XSDT, or an RSDP without a place for its address. -/
theorem Firmware.openTables_none (fw : Firmware env memory rsdp rsdt tables xp)
    (h : ¬ (36 + 8 * tables.length ≤ 4096 ∧ 32 ≤ rsdp.size)) : openTables env memory = none := by
  obtain ⟨hover, -⟩ := newXsdt_spec xp fw.lists.counted fw.lists.holds
  rw [fw.openTables_put]
  by_cases hroom : 36 + 8 * tables.length ≤ 4096
  · have hput : memory.put xp.address (newXsdt rsdt xp) = some (memory.set xp.address (newXsdt rsdt xp)) :=
      Heap.put_eq_some.mpr ⟨hover.mpr hroom, rfl⟩
    have hput' : ∀ memory' : Heap, memory'.put (findRsdPointer env.configurationTable 0) (newRsdp rsdp xp) = none := by
      intro memory'
      apply Heap.put_eq_none.mpr
      apply Bool.eq_true_of_not_eq_false
      intro hsmall
      exact h ⟨hroom, (newRsdp_within (fw.whole _ _ fw.hrsdp)).mp hsmall⟩
    rw [hput, Option.bind_some, hput', Option.bind_none]
  · have hput : memory.put xp.address (newXsdt rsdt xp) = none := by
      apply Heap.put_eq_none.mpr
      apply Bool.eq_true_of_not_eq_false
      intro hbig
      exact hroom (hover.mp hbig)
    rw [hput, Option.bind_none]

end Open

/-! ### The FADT step -/

section Step

variable {env : Environment} {memory : Heap} {rsdp rsdt : Block} {tables : List Nat} {xp fp : Pages}

theorem setFirst_eq {w root : Nat} (value : Nat) {memory : Heap} {b : Block} (hnull : root ≠ 0) (h : memory root = some b) :
    setFirst w root value memory = memory.put root (b.store w 36 value) := by
  rw [setFirst, if_neg hnull, h, Option.bind_eq_bind, Option.bind_some]

/-- The DSDT goes to new pages, and the new FADT gets its address. -/
theorem patchDsdt_some {biosDsdt : Nat} {after : Heap} {fadt new : Block}
    (h : patchDsdt env biosDsdt memory fadt = some (after, new)) :
    (after = memory ∨ ∃ dp dsdt, env.dsdtPages = .ok dp ∧ after = memory.set dp.address dsdt) ∧
      (new = fadt ∨ ∃ address, new = setDsdt fadt address) := by
  unfold patchDsdt at h
  split_ifs at h with hunpatched
  · split at h
    next file pages hfile hpages =>
      simp only [Option.bind_eq_bind, Option.bind_eq_some_iff, Heap.put_eq_some, Option.some_inj, Prod.mk.injEq] at h
      obtain ⟨dsdt, -, memory', ⟨-, rfl⟩, rfl, rfl⟩ := h
      exact ⟨Or.inr ⟨pages, dsdt, hpages, rfl⟩, Or.inr ⟨_, rfl⟩⟩
    next =>
      rw [Option.some_inj, Prod.mk.injEq] at h
      exact ⟨Or.inl h.1.symm, Or.inl h.2.symm⟩
  · simp only [Option.bind_eq_bind, Option.bind_eq_some_iff] at h
    obtain ⟨bios, -, h⟩ := h
    split at h
    next pages hpages =>
      simp only [Option.bind_eq_some_iff, Heap.put_eq_some, Option.some_inj, Prod.mk.injEq] at h
      obtain ⟨dsdt, -, memory', ⟨-, rfl⟩, rfl, rfl⟩ := h
      exact ⟨Or.inr ⟨pages, dsdt, hpages, rfl⟩, Or.inr ⟨_, rfl⟩⟩
    next =>
      rw [Option.some_inj, Prod.mk.injEq] at h
      exact ⟨Or.inl h.1.symm, Or.inl h.2.symm⟩

/-- The writes of the step to what it has not made itself, and the new FADT. -/
def writeStep (facs fadt rsdt xsdt : Nat) (f new : Block) (memory : Heap) : Option Heap :=
  (memory.put facs (f.store 1 32 2)).bind fun memory => (memory.put fadt new).bind fun memory =>
    (setFirst 4 rsdt fadt memory).bind fun memory => setFirst 8 xsdt fadt memory

/-- The FACS flag, when the FACS is said to be where the root is. -/
def flagged (facs root : Nat) (b : Block) : Block := if facs = root then b.store 1 32 2 else b

theorem flagged_agrees (facs root : Nat) (b : Block) : b.Agrees Listing (flagged facs root b) := by
  unfold flagged
  split_ifs
  · exact Block.agrees_store fun a ha => by
      unfold Listing at ha
      omega
  · exact Block.Agrees.refl _ _

theorem flagged_size (facs root : Nat) (b : Block) : (flagged facs root b).size = b.size := by
  unfold flagged
  split_ifs <;> rfl

theorem flagged_within (facs root : Nat) {b : Block} (h : b.overrun = false) (value : Nat) :
    ((flagged facs root b).store 4 36 value).overrun = false ↔ 40 ≤ b.size := by
  rw [Block.overrun_store_iff (by decide), flagged_size]
  constructor
  · exact fun hwithin => hwithin.2
  · intro hsize
    refine ⟨?_, hsize⟩
    unfold flagged
    split_ifs
    · exact (Block.overrun_store (by omega)).trans h
    · exact h

/-- The memory behind the step. -/
def stepped (memory : Heap) (facs fadt rsdt xsdt : Nat) (f new r x : Block) : Heap :=
  (((memory.set facs (f.store 1 32 2)).set fadt new).set rsdt ((flagged facs rsdt r).store 4 36 fadt)).set xsdt
    (x.store 8 36 fadt)

theorem stepped_rsdt {facs fadt r x : Nat} {f new rb xb : Block} (h : r ≠ x) :
    stepped memory facs fadt r x f new rb xb r = some ((flagged facs r rb).store 4 36 fadt) := by
  rw [stepped, Heap.set_other h, Heap.set_same]

theorem stepped_xsdt {facs fadt r x : Nat} {f new rb xb : Block} :
    stepped memory facs fadt r x f new rb xb x = some (xb.store 8 36 fadt) := by
  rw [stepped, Heap.set_same]

theorem stepped_fadt {facs fadt r x : Nat} {f new rb xb : Block} (hr : fadt ≠ r) (hx : fadt ≠ x) :
    stepped memory facs fadt r x f new rb xb fadt = some new := by
  rw [stepped, Heap.set_other hx, Heap.set_other hr, Heap.set_same]

theorem stepped_other {facs fadt r x a : Nat} {f new rb xb : Block} (hf : a ≠ facs) (hfadt : a ≠ fadt) (hr : a ≠ r)
    (hx : a ≠ x) : stepped memory facs fadt r x f new rb xb a = memory a := by
  rw [stepped, Heap.set_other hx, Heap.set_other hr, Heap.set_other hfadt, Heap.set_other hf]

theorem writeStep_eq_some {facs fadt r x : Nat} {f new rb xb : Block} {after : Heap} (hf : memory facs = some f)
    (hr : memory r = some rb) (hx : memory x = some xb) (hrnull : r ≠ 0) (hxnull : x ≠ 0) (hrx : r ≠ x)
    (hfx : facs ≠ x) (hrfadt : r ≠ fadt) (hxfadt : x ≠ fadt) :
    writeStep facs fadt r x f new memory = some after ↔
      (f.store 1 32 2).overrun = false ∧ new.overrun = false ∧ ((flagged facs r rb).store 4 36 fadt).overrun = false ∧
        (xb.store 8 36 fadt).overrun = false ∧ after = stepped memory facs fadt r x f new rb xb := by
  have hr' : ((memory.set facs (f.store 1 32 2)).set fadt new) r = some (flagged facs r rb) := by
    rw [Heap.set_other hrfadt, flagged]
    split_ifs with hfr
    · subst hfr
      rw [hf, Option.some_inj] at hr
      rw [Heap.set_same, hr]
    · rw [Heap.set_other (Ne.symm hfr), hr]
  have hx' : (((memory.set facs (f.store 1 32 2)).set fadt new).set r ((flagged facs r rb).store 4 36 fadt)) x =
      some xb := by
    rw [Heap.set_other hrx.symm, Heap.set_other hxfadt, Heap.set_other hfx.symm, hx]
  unfold writeStep
  simp only [Option.bind_eq_some_iff, Heap.put_eq_some]
  constructor
  · rintro ⟨_, ⟨hfover, rfl⟩, _, ⟨hnew, rfl⟩, _, hfirst, hlast⟩
    rw [setFirst_eq _ hrnull hr', Heap.put_eq_some] at hfirst
    obtain ⟨hrover, rfl⟩ := hfirst
    rw [setFirst_eq _ hxnull hx', Heap.put_eq_some] at hlast
    exact ⟨hfover, hnew, hrover, hlast.1, hlast.2⟩
  · rintro ⟨hfover, hnew, hrover, hxover, rfl⟩
    have hfirst := (setFirst_eq fadt hrnull hr').trans (Heap.put_eq_some.mpr ⟨hrover, rfl⟩)
    have hlast := (setFirst_eq fadt hxnull hx').trans (Heap.put_eq_some.mpr ⟨hxover, rfl⟩)
    exact ⟨_, ⟨hfover, rfl⟩, _, ⟨hnew, rfl⟩, _, hfirst, hlast⟩

theorem patchFadt_eq {s : Tables} {old : Nat} {fadt : Block} (hold : s.memory old = some fadt)
    (hfp : env.fadtPages = .ok fp) :
    patchFadt env old s =
      (patchDsdt env (biosDsdt fadt) s.memory (newFadt env.settings (biosDsdt fadt) fadt fp)).bind fun patched =>
        (patched.1 (firmwareCtrl fadt)).bind fun facs =>
          (writeStep (firmwareCtrl fadt) fp.address s.rsdt s.xsdt facs ((facsFields (firmwareCtrl fadt) patched.2).checksum 9
            (length (facsFields (firmwareCtrl fadt) patched.2))) patched.1).map fun memory => { s with memory } := by
  rw [patchFadt, hold]
  simp only [Option.bind_eq_bind, Option.bind_some]
  rw [hfp]
  simp only [writeStep, Option.map_eq_bind, Option.bind_assoc, Function.comp_def]

/-- Only the new DSDT's place is written. -/
theorem patched_other {biosDsdt : Nat} {fadt new : Block} {after : Heap}
    (h : patchDsdt env biosDsdt memory fadt = some (after, new)) {a : Nat}
    (ha : ∀ dp, env.dsdtPages = .ok dp → a ≠ dp.address) : after a = memory a := by
  rcases (patchDsdt_some h).1 with rfl | ⟨dp, dsdt, hdp, rfl⟩
  · rfl
  · exact Heap.set_other (ha dp hdp)

theorem Firmware.openedMemory_live (fw : Firmware env memory rsdp rsdt tables xp) (hsize : 32 ≤ rsdp.size) {a : Nat}
    {b : Block} (h : memory a = some b) :
    ∃ c, openedMemory env memory rsdp rsdt xp a = some c ∧ c.size = b.size ∧ c.overrun = false := by
  by_cases ha : a = findRsdPointer env.configurationTable 0
  · subst ha
    rw [fw.hrsdp, Option.some_inj] at h
    subst h
    exact ⟨newRsdp rsdp xp, Heap.set_same, rfl, (newRsdp_within (fw.whole _ _ fw.hrsdp)).mpr hsize⟩
  · refine ⟨b, ?_, rfl, fw.whole _ _ h⟩
    rw [openedMemory, Heap.set_other ha, Heap.set_other (fw.ne_of_live h).2.1, h]

theorem Firmware.openedMemory_rsdt (fw : Firmware env memory rsdp rsdt tables xp) :
    openedMemory env memory rsdp rsdt xp (rsdp.word 4 16) = some rsdt := by
  rw [openedMemory, Heap.set_other fw.apart, Heap.set_other (fw.ne_of_live fw.hrsdt).2.1, fw.hrsdt]

theorem Firmware.openedMemory_null (fw : Firmware env memory rsdp rsdt tables xp) :
    openedMemory env memory rsdp rsdt xp 0 = none := by
  rw [openedMemory, Heap.set_other fw.found.symm, Heap.set_other fw.xsdtFresh.2.1.symm, fw.null]

/-- The FACS the step writes to is one the firmware left. -/
theorem Firmware.facs_live (fw : Firmware env memory rsdp rsdt tables xp) (hsize : 32 ≤ rsdp.size) {old : Nat}
    {fadt new b : Block} {after : Heap} {biosDsdt : Nat} (hold : old ∈ tables) (hfadt : memory old = some fadt)
    (hsig : signature fadt = fadtSignature)
    (h : patchDsdt env biosDsdt (openedMemory env memory rsdp rsdt xp) new = some (after, b)) {f : Block}
    (hf : after (firmwareCtrl fadt) = some f) :
    ∃ facs, memory (firmwareCtrl fadt) = some facs ∧ f.size = facs.size ∧ f.overrun = false := by
  rcases fw.pointers old hold fadt hfadt hsig with hnull | ⟨facs, hfacs⟩
  · rw [hnull, patched_other h fun dp hdp => (fw.dsdtFresh dp hdp).2.1.symm, fw.openedMemory_null] at hf
    cases hf
  · obtain ⟨c, hc, hcsize, hcover⟩ := fw.openedMemory_live hsize hfacs
    rw [patched_other h (fw.ne_of_live hfacs).2.2.2, hc, Option.some_inj] at hf
    subst hf
    exact ⟨facs, hfacs, hcsize, hcover⟩

/-- The last version of the new FADT, its page left or not. -/
theorem lastFadt_overrun {biosDsdt facs : Nat} {old fadt : Block} {after : Heap}
    (h : patchDsdt env biosDsdt memory (newFadt env.settings biosDsdt old fp) = some (after, fadt)) :
    ((facsFields facs fadt).checksum 9 (length (facsFields facs fadt))).overrun = false ↔ length old ≤ 4096 := by
  obtain ⟨hsize, hover⟩ := newFadt_within env.settings biosDsdt old fp
  have hroom : 0xF4 ≤ (newFadt env.settings biosDsdt old fp).size := by
    rw [hsize]
    decide
  have hset : Kept (newFadt env.settings biosDsdt old fp) fadt := by
    rcases (patchDsdt_some h).2 with rfl | ⟨address, rfl⟩
    · exact Kept.refl _
    · exact (Kept.refl _).setDsdt hroom address
  have hlast := (hset.facsFields hroom facs).checksum 9 (length (facsFields facs fadt)) (by omega)
  rw [hlast.overrun, hover]

theorem Firmware.patchFadt_iff (fw : Firmware env memory rsdp rsdt tables xp)
    (hroom : 36 + 8 * tables.length ≤ 4096) (hsize : 32 ≤ rsdp.size) {old : Nat} {fadt : Block} (hold : old ∈ tables)
    (hfadt : memory old = some fadt) (hsig : signature fadt = fadtSignature) (hfp : env.fadtPages = .ok fp) {s : Tables} :
    patchFadt env old (opened env memory rsdp rsdt xp) = some s ↔
      ∃ after new f, patchDsdt env (biosDsdt fadt) (openedMemory env memory rsdp rsdt xp)
          (newFadt env.settings (biosDsdt fadt) fadt fp) = some (after, new) ∧ after (firmwareCtrl fadt) = some f ∧
        33 ≤ f.size ∧ length fadt ≤ 4096 ∧ 40 ≤ rsdt.size ∧
        s = ⟨rsdp.word 4 16, xp.address, stepped after (firmwareCtrl fadt) fp.address (rsdp.word 4 16) xp.address f
          ((facsFields (firmwareCtrl fadt) new).checksum 9 (length (facsFields (firmwareCtrl fadt) new))) rsdt
          (newXsdt rsdt xp)⟩ := by
  have hopened : (opened env memory rsdp rsdt xp).memory old = some fadt := (fw.openedMemory_table hold).trans hfadt
  obtain ⟨-, hfnull, -, hfx⟩ := fw.fadtFresh fp hfp
  obtain ⟨hrnull, hrx, hrf, hrd⟩ := fw.ne_of_live fw.hrsdt
  have hxover : (newXsdt rsdt xp).overrun = false := (newXsdt_spec xp fw.lists.counted fw.lists.holds).1.mpr hroom
  have hxsize : (newXsdt rsdt xp).size = 4096 := newXsdt_size fw.lists.counted
  rw [patchFadt_eq hopened hfp]
  simp only [Option.bind_eq_some_iff, Option.map_eq_some_iff, Prod.exists]
  apply exists_congr
  intro after
  apply exists_congr
  intro new
  rw [← exists_and_left]
  apply exists_congr
  intro f
  apply and_congr_right
  intro hpatched
  apply and_congr_right
  intro hf
  obtain ⟨facs, hfacs, hfsize, hfover⟩ := fw.facs_live hsize hold hfadt hsig hpatched hf
  have hr : after (rsdp.word 4 16) = some rsdt := (patched_other hpatched hrd).trans fw.openedMemory_rsdt
  have hx : after xp.address = some (newXsdt rsdt xp) :=
    (patched_other hpatched fun dp hdp => (fw.dsdtFresh dp hdp).2.2.1.symm).trans fw.openedMemory_xsdt
  have hfover' : (f.store 1 32 2).overrun = false ↔ 33 ≤ f.size := by
    rw [Block.overrun_store_iff Nat.one_pos, hfover, eq_self, true_and]
  have hrover := flagged_within (firmwareCtrl fadt) (rsdp.word 4 16) (fw.whole _ _ fw.hrsdt) fp.address
  have hxwithin : ((newXsdt rsdt xp).store 8 36 fp.address).overrun = false := by
    rw [Block.overrun_store (by rw [hxsize]; decide), hxover]
  simp only [opened_rsdt, opened_xsdt, writeStep_eq_some hf hr hx hrnull fw.xsdtFresh.2.1 hrx (fw.ne_of_live hfacs).2.1 (hrf fp hfp) hfx.symm,
    hfover', lastFadt_overrun hpatched, hrover, hxwithin, true_and]
  constructor
  · rintro ⟨memory', ⟨hf33, hshort, hr40, rfl⟩, rfl⟩
    exact ⟨hf33, hshort, hr40, rfl⟩
  · rintro ⟨hf33, hshort, hr40, rfl⟩
    exact ⟨_, ⟨hf33, hshort, hr40, rfl⟩, rfl⟩

end Step

/-! ### Replacement -/

section Replacement

variable {env : Environment} {memory : Heap} {rsdp rsdt : Block} {tables : List Nat} {xp fp : Pages}

/-- The new FADT in place of the old one. -/
def replaced (old new : Nat) (tables : List Nat) : List Nat := tables.map fun table => if table = old then new else table

/-- Where the new FADT is. Without a page for it the old one stays. -/
def newAddress (env : Environment) (old : Nat) : Nat :=
  match env.fadtPages with
  | .ok pages => pages.address
  | .error _ => old

/-- The FADT step replaces the first FADT listed and nothing else, and without one the run ends. -/
def Replaces (env : Environment) (memory : Heap) (tables : List Nat) : Prop :=
  match tables.find? (hasSignature fadtSignature memory) with
  | none => patchAcpi env memory = some (.error .notFound)
  | some old => ∃ s r x, toFadt env memory = some (.ok s) ∧ s.memory s.rsdt = some r ∧ s.memory s.xsdt = some x ∧
      Lists 4 r (replaced old (newAddress env old) tables) ∧ Lists 8 x (replaced old (newAddress env old) tables)

/-- What the step asks of the RSDT, the old FADT and the FACS, and that the DSDT can be patched. -/
structure StepFits (env : Environment) (memory : Heap) (rsdp rsdt : Block) (xp fp : Pages) (old : Nat) (fadt : Block) :
    Prop where
  first : ∃ rest, entries 4 rsdt = old :: rest ∧ old ∉ rest
  short : length fadt ≤ 4096
  facs : ∃ facs, memory (firmwareCtrl fadt) = some facs ∧ 33 ≤ facs.size
  dsdt : (patchDsdt env (biosDsdt fadt) (openedMemory env memory rsdp rsdt xp)
    (newFadt env.settings (biosDsdt fadt) fadt fp)).isSome

/-- A FADT is listed, the new XSDT fits its page, and the step fits. -/
def ReplacesWhen (env : Environment) (memory : Heap) (rsdp rsdt : Block) (tables : List Nat) (xp : Pages) : Prop :=
  36 + 8 * tables.length ≤ 4096 ∧ 32 ≤ rsdp.size ∧
    ∃ old fadt, tables.find? (hasSignature fadtSignature memory) = some old ∧ memory old = some fadt ∧
      ∀ fp, env.fadtPages = .ok fp → StepFits env memory rsdp rsdt xp fp old fadt

theorem replaced_eq_iff {old new : Nat} :
    replaced old new tables = tables ↔ ∀ table ∈ tables, (if table = old then new else table) = table := by
  have hmap : tables.map (fun table => if table = old then new else table) = tables.map id ↔ _ := List.map_inj_left
  rwa [List.map_id] at hmap

theorem replaced_eq_self_iff {old new : Nat} (hne : new ≠ old) : replaced old new tables = tables ↔ old ∉ tables := by
  rw [replaced_eq_iff]
  constructor
  · intro h hmem
    have hold := h old hmem
    rw [if_pos rfl] at hold
    exact hne hold
  · intro h table hmem
    rw [if_neg]
    rintro rfl
    exact h hmem

theorem replaced_self (old : Nat) : replaced old old tables = tables := by
  rw [replaced_eq_iff]
  intro table _
  split_ifs with h
  · exact h.symm
  · rfl

/-- A write to the first entry replaces one table exactly when it is that entry and no other. -/
theorem replaced_first_iff {first old new : Nat} {rest : List Nat} (hold : old ∈ (first :: rest).filter listed)
    (hnew : new ∉ (first :: rest).filter listed) :
    replaced old new ((first :: rest).filter listed) = new :: rest.filter listed ↔ first = old ∧ old ∉ rest := by
  have hnull : listed old = true := (List.mem_filter.mp hold).2
  have hrest : old ∉ rest.filter listed ↔ old ∉ rest := by
    rw [List.mem_filter, and_iff_left hnull]
  by_cases hfirst : listed first = true
  · rw [List.filter_cons_of_pos hfirst] at hold hnew ⊢
    have hne : new ≠ old := fun h => hnew (h ▸ hold)
    rw [replaced, List.map_cons, List.cons.injEq]
    by_cases heq : first = old
    · rw [if_pos heq, eq_self, true_and, ← replaced, replaced_eq_self_iff hne, hrest, and_iff_right heq]
    · rw [if_neg heq]
      constructor
      · rintro ⟨rfl, -⟩
        exact absurd List.mem_cons_self hnew
      · rintro ⟨h, -⟩
        exact absurd h heq
  · rw [List.filter_cons_of_neg hfirst]
    constructor
    · intro h
      have := congrArg List.length h
      rw [replaced, List.length_map, List.length_cons] at this
      omega
    · rintro ⟨rfl, -⟩
      exact absurd hnull hfirst

/-- The first FADT listed and its table. -/
theorem Firmware.old_listed (fw : Firmware env memory rsdp rsdt tables xp) {old : Nat}
    (h : tables.find? (hasSignature fadtSignature memory) = some old) :
    old ∈ tables ∧ ∃ fadt, memory old = some fadt ∧ signature fadt = fadtSignature := by
  have hmem := List.mem_of_find?_eq_some h
  obtain ⟨fadt, hfadt⟩ := fw.live old hmem
  have hsig := List.find?_some h
  rw [hasSignature, hfadt, Option.any_some, decide_eq_true_eq] at hsig
  exact ⟨hmem, fadt, hfadt, hsig⟩

/-- The roots behind the step list the tables with the FADT replaced exactly when it came first. -/
theorem Firmware.lists_stepped_iff (fw : Firmware env memory rsdp rsdt tables xp)
    (hroom : 36 + 8 * tables.length ≤ 4096) {old : Nat} (hold : old ∈ tables) (hfp : env.fadtPages = .ok fp) (facs : Nat) :
    (Lists 4 ((flagged facs (rsdp.word 4 16) rsdt).store 4 36 fp.address) (replaced old fp.address tables) ∧
        Lists 8 ((newXsdt rsdt xp).store 8 36 fp.address) (replaced old fp.address tables)) ↔
      ∃ rest, entries 4 rsdt = old :: rest ∧ old ∉ rest := by
  obtain ⟨-, hfnull, hflt, -⟩ := fw.fadtFresh fp hfp
  have hnew : fp.address ∉ tables := fun h => (fw.ne_of_listed h).2.2.1 fp hfp rfl
  have hr := fw.lists.of_agrees (flagged_agrees facs (rsdp.word 4 16) rsdt) (flagged_size _ _ _)
  have hentries := entries_of_agrees (w := 4) (flagged_agrees facs (rsdp.word 4 16) rsdt)
  obtain ⟨hx, hxentries⟩ := (newXsdt_spec xp fw.lists.counted fw.lists.holds).2 hroom
  have htables := fw.lists.holds
  cases hfirst : entries 4 rsdt with
  | nil =>
      rw [hfirst, List.filter_nil] at htables
      rw [← htables] at hold
      exact absurd hold List.not_mem_nil
  | cons first rest =>
      rw [hfirst] at htables hentries
      have hstored := lists_setFirst (by decide) hr hentries hflt hfnull
      rw [← htables] at hold hnew
      have hiff := replaced_first_iff hold hnew
      rw [htables] at hiff
      constructor
      · rintro ⟨hlists, -⟩
        obtain ⟨rfl, hrest⟩ := hiff.mp (hlists.unique hstored)
        exact ⟨rest, rfl, hrest⟩
      · rintro ⟨rest', heq, hrest⟩
        obtain ⟨rfl, rfl⟩ := List.cons.inj heq
        rw [hiff.mpr ⟨rfl, hrest⟩]
        refine ⟨hstored, ?_⟩
        have hlisted : listed first = true := (List.mem_filter.mp hold).2
        rw [List.filter_cons_of_pos hlisted] at htables
        have hxstored := lists_setFirst (by decide) hx (hxentries.trans htables.symm) (hflt.trans (by decide)) hfnull
        rw [List.filter_filter] at hxstored
        simpa only [Bool.and_self] using hxstored

/-- The run ends at the FADT step, where the roots are opened and a FADT is found. -/
theorem Firmware.toFadt_eq (fw : Firmware env memory rsdp rsdt tables xp) (hroom : 36 + 8 * tables.length ≤ 4096)
    (hsize : 32 ≤ rsdp.size) {old : Nat} (hfind : tables.find? (hasSignature fadtSignature memory) = some old) :
    toFadt env memory = (patchFadt env old (opened env memory rsdp rsdt xp)).map .ok := by
  rw [toFadt, fw.openTables_eq hroom hsize, hfind]
  rfl

theorem Firmware.opened_lists (fw : Firmware env memory rsdp rsdt tables xp) (hroom : 36 + 8 * tables.length ≤ 4096) :
    ∃ r x, openedMemory env memory rsdp rsdt xp (rsdp.word 4 16) = some r ∧
      openedMemory env memory rsdp rsdt xp xp.address = some x ∧ Lists 4 r tables ∧ Lists 8 x tables :=
  ⟨rsdt, newXsdt rsdt xp, fw.openedMemory_rsdt, fw.openedMemory_xsdt, fw.lists,
    ((newXsdt_spec xp fw.lists.counted fw.lists.holds).2 hroom).1⟩

/-- The step with a page for the new FADT. -/
theorem Firmware.replaced_ok_iff (fw : Firmware env memory rsdp rsdt tables xp) (hroom : 36 + 8 * tables.length ≤ 4096)
    (hsize : 32 ≤ rsdp.size) {old : Nat} {fadt : Block} (hold : old ∈ tables) (hfadt : memory old = some fadt)
    (hsig : signature fadt = fadtSignature) (hfp : env.fadtPages = .ok fp) :
    (∃ s r x, patchFadt env old (opened env memory rsdp rsdt xp) = some s ∧ s.memory s.rsdt = some r ∧
        s.memory s.xsdt = some x ∧ Lists 4 r (replaced old fp.address tables) ∧
        Lists 8 x (replaced old fp.address tables)) ↔
      StepFits env memory rsdp rsdt xp fp old fadt := by
  have hrx := (fw.ne_of_live fw.hrsdt).2.1
  constructor
  · rintro ⟨s, r, x, hrun, hr, hx, hlists⟩
    rw [fw.patchFadt_iff hroom hsize hold hfadt hsig hfp] at hrun
    obtain ⟨after, new, f, hpatched, hf, hfsize, hshort, -, rfl⟩ := hrun
    obtain ⟨facs, hfacs, heq, -⟩ := fw.facs_live hsize hold hfadt hsig hpatched hf
    obtain rfl := Option.some_inj.mp ((stepped_rsdt hrx).symm.trans hr)
    obtain rfl := Option.some_inj.mp (stepped_xsdt.symm.trans hx)
    constructor
    · exact (fw.lists_stepped_iff hroom hold hfp _).mp hlists
    · exact hshort
    · exact ⟨facs, hfacs, heq ▸ hfsize⟩
    · rw [hpatched]
      rfl
  · rintro ⟨hfirst, hshort, ⟨facs, hfacs, hfsize⟩, hdsdt⟩
    obtain ⟨⟨after, new⟩, hpatched⟩ := Option.isSome_iff_exists.mp hdsdt
    obtain ⟨f, hf, heq, -⟩ := fw.openedMemory_live hsize hfacs
    rw [← patched_other hpatched (fw.ne_of_live hfacs).2.2.2] at hf
    have hlong : 40 ≤ rsdt.size := by
      obtain ⟨rest, hentries, -⟩ := hfirst
      have hlen := fw.lists.counted
      have hwithin := fw.lists.within
      rw [hentries, List.length_cons] at hlen
      omega
    have hrun := (fw.patchFadt_iff hroom hsize hold hfadt hsig hfp).mpr
      ⟨after, new, f, hpatched, hf, heq ▸ hfsize, hshort, hlong, rfl⟩
    exact ⟨_, _, _, hrun, stepped_rsdt hrx, stepped_xsdt,
      (fw.lists_stepped_iff hroom hold hfp (firmwareCtrl fadt)).mpr hfirst⟩

end Replacement

/-! ### A FADT in front, and one behind another table -/

def noSettings : Settings := ⟨0, 0, 0, [], false, false, [], false⟩

/-- Two pages, and no file on the disk. -/
def twoPages : Environment where
  configurationTable := [(.acpi20, 0x100)]
  settings := noSettings
  xsdtPages := .ok ⟨0x10000, fun _ => 0⟩
  fadtPages := .ok ⟨0x20000, fun _ => 0⟩
  dsdtFile := none
  dsdtPages := .error .outOfResources
  tableFiles := []

def smallRsdp : Block := tableOf (List.replicate 16 0 ++ [0, 16, 0, 0] ++ List.replicate 16 0)

/-- An RSDT with the two entries given. -/
def pairRsdt (entries : List UInt8) : Block := tableOf (headerOf [82, 83, 68, 84] 44 ++ entries)

/-- A FADT with a FACS at `0x5000`. -/
def smallFadt : Block := tableOf (headerOf [70, 65, 67, 80] 244 ++ [0, 80, 0, 0] ++ List.replicate 204 0)

/-- The RSDP, an RSDT, a FADT at `0x3000`, an SSDT at `0x4000` and a FACS. -/
def pairMemory (rsdp : Block) (entries : List UInt8) : Heap := fun a =>
  if a = 0x100 then some rsdp
  else if a = 0x1000 then some (pairRsdt entries)
  else if a = 0x3000 then some smallFadt
  else if a = 0x4000 then some (tableOf (headerOf [83, 83, 68, 84] 36))
  else if a = 0x5000 then some (tableOf (List.replicate 64 0))
  else none

theorem firmware_pair (rsdp : Block) (hrsdt : rsdp.word 4 16 = 0x1000) (hwhole : rsdp.overrun = false)
    {bytes : List UInt8} {tables : List Nat} (hlists : Lists 4 (pairRsdt bytes) tables)
    (htables : ∀ a ∈ tables, a = 0x3000 ∨ a = 0x4000) :
    Firmware twoPages (pairMemory rsdp bytes) rsdp (pairRsdt bytes) tables ⟨0x10000, fun _ => 0⟩ where
  found := by decide
  hrsdp := rfl
  hrsdt := by
    rw [hrsdt]
    rfl
  apart := by
    rw [hrsdt]
    decide
  unlisted := by
    intro h
    rcases htables _ h with h | h
    · exact absurd h (by decide)
    · exact absurd h (by decide)
  lists := hlists
  live := by
    intro a ha
    rcases htables a ha with rfl | rfl
    · exact ⟨_, rfl⟩
    · exact ⟨_, rfl⟩
  whole := by
    intro a b h
    unfold pairMemory at h
    split_ifs at h <;> cases h <;> first | exact hwhole | rfl
  null := rfl
  pointers := by
    intro a ha fadt hfadt hsig
    rcases htables a ha with rfl | rfl
    · cases hfadt
      exact Or.inr ⟨tableOf (List.replicate 64 0), rfl⟩
    · cases hfadt
      exact absurd hsig (by decide)
  xsdtPages := rfl
  xsdtFresh := ⟨rfl, by decide, by decide⟩
  fadtFresh := by
    intro fp h
    cases h
    exact ⟨rfl, by decide, by decide, by decide⟩
  dsdtFresh := by
    intro dp h
    cases h

theorem fadtFirst_lists : Lists 4 (pairRsdt [0, 48, 0, 0, 0, 64, 0, 0]) [0x3000, 0x4000] :=
  ⟨by decide, by decide, by decide⟩

theorem fadtLast_lists : Lists 4 (pairRsdt [0, 64, 0, 0, 0, 48, 0, 0]) [0x4000, 0x3000] :=
  ⟨by decide, by decide, by decide⟩

end BareBoot.Acpi
