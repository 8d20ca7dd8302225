import BareBoot.FadtReplacement
import BareBoot.Fold

/-! The checksums `PatchACPI` leaves. Both roots are summed last. The RSDP gets its first checksum only, and
the DSDT of the disk is summed over the size of its file. -/

namespace BareBoot.Acpi

/-! ### A root keeps its header

The drops take from the length what the entries had, and an insertion that wraps it has left the root. -/

section Headed

variable {w todo : Nat} {b : Block} {memory : Heap} {root sig tableId : Nat}

/-- Unless a write has left the root, its length counts the header and `todo` entries. -/
structure Headed (w todo : Nat) (b : Block) : Prop where
  small : b.size < 2 ^ 32
  counts : b.overrun = false → 36 + w * todo ≤ length b ∧ length b ≤ b.size

theorem Headed.mono (h : Headed w todo b) {left : Nat} (hle : left ≤ todo) : Headed w left b where
  small := h.small
  counts := by
    intro hover
    obtain ⟨hlow, hhigh⟩ := h.counts hover
    have := Nat.mul_le_mul_left w hle
    exact ⟨by omega, hhigh⟩

theorem Headed.store (h : Headed w todo b) {off width value : Nat} (hoff : 8 ≤ off) (hwidth : 0 < width) :
    Headed w todo (b.store width off value) where
  small := h.small
  counts := by
    intro hover
    rw [Block.overrun_store_iff hwidth] at hover
    have hkept : length (b.store width off value) = length b := Block.word_store_outside (Or.inl hoff)
    rw [hkept]
    exact h.counts hover.1

theorem Headed.shorten (h : Headed w (todo + 1) b) : Headed w todo (shorten w b) where
  small := h.small
  counts := by
    intro hover
    rw [Acpi.shorten, setLength, Block.overrun_store_iff (by decide)] at hover
    obtain ⟨hlow, hhigh⟩ := h.counts hover.1
    have hlt := length_lt b
    rw [Acpi.shorten, length_setLength (Nat.mod_lt _ (by decide))]
    have hsize : (setLength b ((length b + 2 ^ 32 - w) % 2 ^ 32)).size = b.size := rfl
    rw [hsize]
    rw [Nat.mul_succ] at hlow
    omega

theorem Headed.moveDown (hw : 0 < w) {count ptr : Nat} (h : Headed w todo b) (hptr : 8 ≤ ptr) :
    Headed w todo (moveDown w count ptr b) := by
  induction count generalizing ptr b with
  | zero => exact h
  | succ count ih => exact ih (h.store hptr hw) (by omega)

theorem Headed.of_entryCount (hsmall : b.size < 2 ^ 32) (hcounts : b.overrun = false → 36 ≤ length b ∧ length b ≤ b.size) :
    Headed w (entryCount w b) b where
  small := hsmall
  counts := by
    intro hover
    obtain ⟨hlow, hhigh⟩ := hcounts hover
    have hlt := length_lt b
    have hmod : (length b + 2 ^ 64 - 36) % 2 ^ 64 = length b - 36 := by omega
    have hle : w * entryCount w b ≤ length b - 36 := by
      calc w * entryCount w b ≤ w * ((length b - 36) / w) := by
            rw [entryCount, hmod]
            exact Nat.mul_le_mul_left w (Nat.mod_le _ _)
        _ ≤ length b - 36 := Nat.mul_div_le _ _
    exact ⟨by omega, hhigh⟩

theorem dropEntries_headed (hw : 0 < w) {ptr : Nat} {run : Heap × List Nat} (hroot : memory root = some b)
    (h : Headed w todo b) (hptr : 8 ≤ ptr) (hrun : dropEntries w root sig tableId todo ptr memory = some run) :
    ∃ c, run.1 = memory.set root c ∧ Headed w 0 c := by
  induction todo generalizing ptr memory b run with
  | zero =>
      cases hrun
      exact ⟨b, (Heap.set_eq_self hroot).symm, h⟩
  | succ todo ih =>
      have hleft : Headed w todo b := h.mono (Nat.le_succ todo)
      rw [dropEntries, hroot, Option.bind_eq_bind, Option.bind_some] at hrun
      by_cases hzero : b.word w ptr = 0
      · rw [if_pos hzero] at hrun
        obtain ⟨c, hc, hheaded⟩ := ih Heap.set_same h.shorten (by omega) hrun
        exact ⟨c, by rw [hc, Heap.set_set], hheaded⟩
      · rw [if_neg hzero, Option.bind_eq_some_iff] at hrun
        obtain ⟨table, -, hrun⟩ := hrun
        rw [Option.map_eq_some_iff] at hrun
        obtain ⟨later, hlater, rfl⟩ := hrun
        change ∃ c, later.1 = memory.set root c ∧ Headed w 0 c
        split_ifs at hlater
        · exact ih hroot hleft (by omega) hlater
        · exact ih hroot hleft (by omega) hlater
        · obtain ⟨c, hc, hheaded⟩ := ih Heap.set_same (h.moveDown hw hptr).shorten hptr hlater
          exact ⟨c, by rw [hc, Heap.set_set], hheaded⟩

theorem dropTable_headed (hw : 0 < w) {run : Heap × List Nat} (hroot : memory root = some b) (h : Headed w 0 b)
    (hrun : dropTable w root sig tableId memory = some run) : ∃ c, run.1 = memory.set root c ∧ Headed w 0 c := by
  rw [dropTable, hroot, Option.bind_eq_bind, Option.bind_some] at hrun
  exact dropEntries_headed hw hroot (Headed.of_entryCount h.small h.counts) (by decide) hrun

theorem appendEntry_headed (hw : 0 < w) {value : Nat} {after : Heap} (hnull : root ≠ 0) (hroot : memory root = some b)
    (h : Headed w 0 b) (hrun : appendEntry w root value memory = some after) :
    ∃ c, after = memory.set root c ∧ Headed w 0 c := by
  rw [appendEntry, if_neg hnull, hroot, Option.bind_eq_bind, Option.bind_some, Option.some_inj] at hrun
  refine ⟨_, hrun.symm, h.small, ?_⟩
  intro hover
  have hsmall := h.small
  rw [setLength, Block.overrun_store_iff (by decide)] at hover
  obtain ⟨hwritten, -⟩ := hover
  rw [Block.overrun_store_iff hw] at hwritten
  obtain ⟨hlow, hhigh⟩ := h.counts hwritten.1
  have hkept : length (b.store w (length b) value) = length b := Block.word_store_outside (Or.inl (by omega))
  have hsize : ∀ v, (setLength (b.store w (length b) value) v).size = b.size := fun _ => rfl
  rw [length_setLength (Nat.mod_lt _ (by decide)), hsize, hkept]
  omega

end Headed

/-! ### The run behind the FADT step -/

section Run

variable {r x : Nat} {kept : Nat → Prop} {before : Heap} {s : Tables}

/-- Both roots keep their headers, and what is to be kept is as before. -/
structure Roots (r x : Nat) (kept : Nat → Prop) (before : Heap) (s : Tables) : Prop where
  rsdt : s.rsdt = r
  xsdt : s.xsdt = x
  rsdtHeaded : ∃ b, s.memory r = some b ∧ Headed 4 0 b
  xsdtHeaded : ∃ b, s.memory x = some b ∧ Headed 8 0 b
  kept : ∀ a, kept a → s.memory a = before a

/-- The roots are two objects, neither of them to be kept. -/
structure Separate (r x : Nat) (kept : Nat → Prop) : Prop where
  rsdtNull : r ≠ 0
  xsdtNull : x ≠ 0
  apart : r ≠ x
  rsdtFree : ∀ a, kept a → a ≠ r
  xsdtFree : ∀ a, kept a → a ≠ x

theorem Roots.setRsdt (h : Roots r x kept before s) (hsep : Separate r x kept) {b : Block} (hb : Headed 4 0 b) :
    Roots r x kept before { s with memory := s.memory.set r b } where
  rsdt := h.rsdt
  xsdt := h.xsdt
  rsdtHeaded := ⟨b, Heap.set_same, hb⟩
  xsdtHeaded := by
    obtain ⟨c, hc, hheaded⟩ := h.xsdtHeaded
    exact ⟨c, (Heap.set_other hsep.apart.symm).trans hc, hheaded⟩
  kept := fun a ha => (Heap.set_other (hsep.rsdtFree a ha)).trans (h.kept a ha)

theorem Roots.setXsdt (h : Roots r x kept before s) (hsep : Separate r x kept) {b : Block} (hb : Headed 8 0 b) :
    Roots r x kept before { s with memory := s.memory.set x b } where
  rsdt := h.rsdt
  xsdt := h.xsdt
  rsdtHeaded := by
    obtain ⟨c, hc, hheaded⟩ := h.rsdtHeaded
    exact ⟨c, (Heap.set_other hsep.apart).trans hc, hheaded⟩
  xsdtHeaded := ⟨b, Heap.set_same, hb⟩
  kept := fun a ha => (Heap.set_other (hsep.xsdtFree a ha)).trans (h.kept a ha)

theorem Roots.setOther (h : Roots r x kept before s) {a : Nat} {b : Block} (har : r ≠ a) (hax : x ≠ a)
    (hkept : ∀ c, kept c → c ≠ a) : Roots r x kept before { s with memory := s.memory.set a b } where
  rsdt := h.rsdt
  xsdt := h.xsdt
  rsdtHeaded := by
    obtain ⟨c, hc, hheaded⟩ := h.rsdtHeaded
    exact ⟨c, (Heap.set_other har).trans hc, hheaded⟩
  xsdtHeaded := by
    obtain ⟨c, hc, hheaded⟩ := h.xsdtHeaded
    exact ⟨c, (Heap.set_other hax).trans hc, hheaded⟩
  kept := fun c hc => (Heap.set_other (hkept c hc)).trans (h.kept c hc)

theorem Roots.dropBoth (h : Roots r x kept before s) (hsep : Separate r x kept) {sig tableId : Nat} {after : Tables}
    (hrun : dropBoth sig tableId s = some after) : Roots r x kept before after := by
  simp only [Acpi.dropBoth, dropTableFromRsdt, dropTableFromXsdt, Option.bind_eq_bind, Option.bind_eq_some_iff,
    Option.some_inj] at hrun
  obtain ⟨_, ⟨run, hrun, rfl⟩, _, ⟨run', hrun', rfl⟩, rfl⟩ := hrun
  rw [h.rsdt] at hrun
  obtain ⟨b, hb, hheaded⟩ := h.rsdtHeaded
  obtain ⟨c, hc, hheaded⟩ := dropTable_headed (by decide) hb hheaded hrun
  have hfirst := h.setRsdt hsep hheaded
  rw [← hc] at hfirst
  rw [hfirst.xsdt] at hrun'
  obtain ⟨b', hb', hheaded'⟩ := hfirst.xsdtHeaded
  obtain ⟨c', hc', hheaded'⟩ := dropTable_headed (by decide) hb' hheaded' hrun'
  have hlast := hfirst.setXsdt hsep hheaded'
  rw [← hc'] at hlast
  exact hlast

theorem Roots.onlyIf {setting : Bool} {call : Tables → Option Tables}
    (hcall : ∀ s after, Roots r x kept before s → call s = some after → Roots r x kept before after)
    (h : Roots r x kept before s) {after : Tables} (hrun : onlyIf setting call s = some after) :
    Roots r x kept before after := by
  unfold Acpi.onlyIf at hrun
  split_ifs at hrun
  · exact hcall s after h hrun
  · cases hrun
    exact h

theorem Roots.dropTables (h : Roots r x kept before s) (hsep : Separate r x kept) {settings : Settings} {after : Tables}
    (hrun : dropTables settings s = some after) : Roots r x kept before after := by
  simp only [Acpi.dropTables, Option.bind_eq_bind, Option.bind_eq_some_iff] at hrun
  obtain ⟨first, hfirst, second, hsecond, hlast⟩ := hrun
  have hdmar := h.onlyIf (fun s after h hrun => h.dropBoth hsep hrun) hfirst
  have htables := Fold.foldlM_keeps (fun table _ s after h hrun => h.dropBoth hsep hrun) hdmar hsecond
  exact htables.onlyIf (fun s after h hrun => h.dropBoth hsep hrun) hlast

theorem Roots.insertTable (h : Roots r x kept before s) (hsep : Separate r x kept) {file : File} {pages : Pages}
    {after : Tables × Status} (hr : r ≠ pages.address) (hx : x ≠ pages.address) (hkept : ∀ a, kept a → a ≠ pages.address)
    (hrun : insertTable (some file.byte) file.size (.ok pages) s = some after) : Roots r x kept before after.1 := by
  simp only [Acpi.insertTable, Option.bind_eq_bind, Option.bind_eq_some_iff, Option.some_inj] at hrun
  obtain ⟨first, hfirst, last, hlast, rfl⟩ := hrun
  have hcopied := h.setOther (b := tableCopy file.byte file.size pages) hr hx hkept
  rw [h.rsdt] at hfirst
  rw [h.xsdt] at hlast
  obtain ⟨b, hb, hheaded⟩ := hcopied.rsdtHeaded
  obtain ⟨c, rfl, hheaded⟩ := appendEntry_headed (by decide) hsep.rsdtNull hb hheaded hfirst
  have hsecond := hcopied.setRsdt hsep hheaded
  obtain ⟨b', hb', hheaded'⟩ := hsecond.xsdtHeaded
  obtain ⟨c', rfl, hheaded'⟩ := appendEntry_headed (by decide) hsep.xsdtNull hb' hheaded' hlast
  exact hsecond.setXsdt hsep hheaded'

theorem Roots.loadTable (h : Roots r x kept before s) (hsep : Separate r x kept)
    {file : Option (File × Except Status Pages)} {after : Tables}
    (hfresh : ∀ f pages, file = some (f, .ok pages) → r ≠ pages.address ∧ x ≠ pages.address ∧
      ∀ a, kept a → a ≠ pages.address)
    (hrun : loadTable s file = some after) : Roots r x kept before after := by
  match file with
  | none =>
      cases hrun
      exact h
  | some (file, .error status) =>
      cases hrun
      exact h
  | some (file, .ok pages) =>
      obtain ⟨hr, hx, hkept⟩ := hfresh file pages rfl
      rw [Acpi.loadTable, Option.map_eq_some_iff] at hrun
      obtain ⟨run, hrun, rfl⟩ := hrun
      exact h.insertTable hsep hr hx hkept hrun

/-- The sum over the length the table says it has. -/
def Sums (b : Block) : Prop := b.sum8 (length b) = 0

theorem length_checksum (b : Block) (count : Nat) : length (b.checksum 9 count) = length b :=
  Block.word_checksum (Or.inl (by decide))

theorem Headed.sums {w : Nat} {b : Block} (h : Headed w 0 b) (hover : (b.checksum 9 (length b)).overrun = false) :
    Sums (b.checksum 9 (length b)) := by
  rw [Block.overrun_checksum_iff] at hover
  have := (h.counts hover.1).1
  rw [Sums, length_checksum]
  exact Block.sum8_checksum (by omega)

/-- The roots are summed at the end, and nothing else is written. -/
theorem Roots.sumRoots (h : Roots r x kept before s) (hsep : Separate r x kept) {first last : Heap}
    (hfirst : sumRoot s.rsdt s.memory = some first) (hlast : sumRoot s.xsdt first = some last) :
    (∃ b, last r = some b ∧ Sums b) ∧ (∃ b, last x = some b ∧ Sums b) ∧ ∀ a, kept a → last a = before a := by
  obtain ⟨b, hb, hheaded⟩ := h.rsdtHeaded
  obtain ⟨c, hc, hheaded'⟩ := h.xsdtHeaded
  rw [h.rsdt, sumRoot, if_neg hsep.rsdtNull, hb, Option.bind_eq_bind, Option.bind_some, Heap.put_eq_some] at hfirst
  obtain ⟨hover, rfl⟩ := hfirst
  rw [h.xsdt, sumRoot, if_neg hsep.xsdtNull, Heap.set_other hsep.apart.symm, hc, Option.bind_eq_bind, Option.bind_some,
    Heap.put_eq_some] at hlast
  obtain ⟨hover', rfl⟩ := hlast
  refine ⟨⟨_, ?_, hheaded.sums hover⟩, ⟨_, Heap.set_same, hheaded'.sums hover'⟩, ?_⟩
  · rw [Heap.set_other hsep.apart, Heap.set_same]
  · intro a ha
    rw [Heap.set_other (hsep.xsdtFree a ha), Heap.set_other (hsep.rsdtFree a ha), h.kept a ha]

end Run

/-! ### The FADT and the DSDT -/

section Tables

variable {env : Environment} {settings : Settings} {memory : Heap} {fp : Pages} {b fadt : Block}

theorem length_store {off width value : Nat} (h : 8 ≤ off) : length (b.store width off value) = length b :=
  Block.word_store_outside (Or.inl h)

theorem length_extraBlock {off bitWidth access old : Nat} (h : 8 ≤ off) :
    length (extraBlock off bitWidth access old b) = length b := by
  unfold extraBlock storeAddress
  rw [length_store (by omega), length_store (by omega), length_store (by omega), length_store (by omega), length_store h]

theorem length_plainFields : length (plainFields b) = 0xF4 := by
  unfold plainFields
  simp (disch := decide) only [length_store]
  exact Block.word_store_of_lt (by decide)

theorem length_resetRegister : length (resetRegister settings b) = length b := by
  unfold resetRegister
  dsimp only
  split_ifs <;> simp (disch := decide) only [length_store]

theorem length_upgradeFadt : length (upgradeFadt settings b) = 0xF4 := by
  unfold upgradeFadt
  simp (disch := decide) only [length_extraBlock]
  rw [length_resetRegister, resetSupported, length_store (by decide), length_plainFields]

theorem length_fadtFields {biosDsdt : Nat} : length (fadtFields settings biosDsdt b) = length b := by
  have hid : length (b.write 10 6 apple) = length b := Block.word_write_outside (Or.inl (by decide))
  unfold fadtFields setDsdt resetSupported
  dsimp only
  split_ifs <;> simp (disch := decide) only [length_store, hid]

theorem length_newFadt {biosDsdt : Nat} : 0xF4 ≤ length (newFadt settings biosDsdt fadt fp) := by
  unfold newFadt
  dsimp only
  rw [length_fadtFields]
  split_ifs with hold
  · rw [length_upgradeFadt]
  · omega

theorem length_setDsdt {dsdt : Nat} : length (setDsdt b dsdt) = length b := by
  rw [setDsdt, length_store (by decide), length_store (by decide)]

theorem length_facsFields {facs : Nat} : length (facsFields facs b) = length b := by
  unfold facsFields
  dsimp only
  split_ifs <;> simp (disch := decide) only [length_store]

/-- The new FADT is summed over its length, when it is complete. -/
theorem lastFadt_sums {biosDsdt facs : Nat} {old new : Block} {after : Heap}
    (h : patchDsdt env biosDsdt memory (newFadt env.settings biosDsdt old fp) = some (after, new)) :
    Sums ((facsFields facs new).checksum 9 (length (facsFields facs new))) := by
  have hlong : 0xF4 ≤ length new := by
    rcases (patchDsdt_some h).2 with rfl | ⟨address, rfl⟩
    · exact length_newFadt
    · rw [length_setDsdt]
      exact length_newFadt
  rw [Sums, length_checksum, length_facsFields]
  exact Block.sum8_checksum (by omega)

/-- The DSDT of the disk before its checksum. -/
def fixedFile (biosDsdt : Block) (file : File) (pages : Pages) : Block :=
  fixRegions (getBiosRegions biosDsdt.byte (length biosDsdt))
    ((Block.fresh (4096 * sizeToPages file.size) pages.content).write 0 file.size file.byte) (file.size % 2 ^ 32)

/-- The run changes the DSDT it hands on. -/
def DsdtModified (env : Environment) (fadt : Block) : Prop :=
  biosDsdt fadt ≠ 0 ∧ (env.settings.patchDsdt.length = 0 → env.dsdtFile.isSome ∧ env.settings.fixRegions)

/-- What the DSDT is summed over is what its length says, or the bytes in between sum to zero. -/
def DsdtSums (env : Environment) (memory : Heap) (fadt : Block) (dp : Pages) : Prop :=
  ∀ bios, memory (biosDsdt fadt) = some bios →
    if env.settings.patchDsdt.length = 0 then
      ∀ file, env.dsdtFile = some file →
        (fixedFile bios file dp).SumsAlike 9 file.size (length (fixedFile bios file dp))
    else
      ∀ fixed, fixDsdt env.settings.patchDsdt (dsdtBuffer bios.byte (length bios) dp.content) (length bios) = some fixed →
        (fixed.1.store 4 4 fixed.2).SumsAlike 9 fixed.2 (length (fixed.1.store 4 4 fixed.2))

theorem sums_checksum_iff {count : Nat} : Sums (b.checksum 9 count) ↔ b.SumsAlike 9 count (length b) := by
  rw [Sums, length_checksum, Block.sum8_checksum_iff]

/-- A modified DSDT is where its pages are. -/
theorem patchDsdt_sums {new : Block} {after : Heap} {dp : Pages} (hmodified : DsdtModified env fadt)
    (hdp : env.dsdtPages = .ok dp) (h : patchDsdt env (biosDsdt fadt) memory b = some (after, new)) :
    ∃ dsdt, after dp.address = some dsdt ∧ (Sums dsdt ↔ DsdtSums env memory fadt dp) := by
  obtain ⟨hbios, hfile⟩ := hmodified
  unfold patchDsdt at h
  unfold DsdtSums
  by_cases hnone : env.settings.patchDsdt.length = 0
  · obtain ⟨hsome, hfix⟩ := hfile hnone
    obtain ⟨file, hfile⟩ := Option.isSome_iff_exists.mp hsome
    rw [if_pos (Or.inl hnone), hfile, hdp] at h
    simp only [loadedDsdt, if_pos (And.intro hfix hbios), Option.bind_eq_bind, Option.bind_eq_some_iff, Option.some_inj,
      Heap.put_eq_some, Prod.mk.injEq] at h
    obtain ⟨_, ⟨bios, hmem, rfl⟩, _, ⟨-, rfl⟩, rfl, rfl⟩ := h
    refine ⟨_, Heap.set_same, ?_⟩
    rw [← fixedFile, sums_checksum_iff, hmem, hfile]
    simp only [Option.some.injEq, forall_eq', if_pos hnone]
  · rw [if_neg (by rintro (h | h); exacts [hnone h, hbios h]), hdp] at h
    simp only [patchedDsdt, Option.bind_eq_bind, Option.bind_eq_some_iff, Option.some_inj, Heap.put_eq_some,
      Prod.mk.injEq] at h
    obtain ⟨bios, hmem, _, ⟨fixed, hfixed, rfl⟩, _, ⟨-, rfl⟩, rfl, rfl⟩ := h
    refine ⟨_, Heap.set_same, ?_⟩
    rw [sums_checksum_iff, hmem]
    simp only [Option.some.injEq, forall_eq', if_neg hnone, hfixed]

end Tables

/-! ### The whole run -/

section Whole

variable {env : Environment} {memory : Heap} {rsdp rsdt fadt : Block} {tables : List Nat} {xp : Pages} {s : Tables}

/-- Every structure the run has written sums to zero: the RSDP over its first 20 bytes and from revision 2 on over
its length, the other tables over theirs. -/
structure Checksummed (env : Environment) (fadt : Block) (s : Tables) : Prop where
  rsdpSums : ∃ b, s.memory (findRsdPointer env.configurationTable 0) = some b ∧ b.sum8 20 = 0 ∧
    (2 ≤ b.word 1 15 → b.sum8 (b.word 4 20) = 0)
  rsdtSums : ∃ b, s.memory s.rsdt = some b ∧ Sums b
  xsdtSums : ∃ b, s.memory s.xsdt = some b ∧ Sums b
  fadtSums : ∀ fp, env.fadtPages = .ok fp → ∃ b, s.memory fp.address = some b ∧ Sums b
  dsdtSums : ∀ fp dp, env.fadtPages = .ok fp → env.dsdtPages = .ok dp → DsdtModified env fadt →
    ∃ b, s.memory dp.address = some b ∧ Sums b

/-- What the FACS, the RSDT and the pages for the inserted tables have to be apart from. -/
structure Apart (env : Environment) (memory : Heap) (rsdt fadt : Block) (xp : Pages) : Prop where
  facs : firmwareCtrl fadt ≠ findRsdPointer env.configurationTable 0
  small : rsdt.size < 2 ^ 32
  files : ∀ file pages, some (file, .ok pages) ∈ env.tableFiles → memory pages.address = none ∧
    pages.address ≠ xp.address ∧ (∀ fp, env.fadtPages = .ok fp → pages.address ≠ fp.address) ∧
    ∀ dp, env.dsdtPages = .ok dp → pages.address ≠ dp.address

/-- From revision 2 on the bytes of the RSDP behind the first 20 sum to zero with the new address, and so do the
bytes of a modified DSDT that its sum is too short or too long by. -/
structure ChecksumsWhen (env : Environment) (memory : Heap) (rsdp rsdt fadt : Block) (xp : Pages) : Prop where
  rsdpRest : 2 ≤ rsdp.word 1 15 → (rsdp.store 8 24 xp.address).SumsAlike 8 20 (rsdp.word 4 20)
  dsdtRest : ∀ fp dp, env.fadtPages = .ok fp → env.dsdtPages = .ok dp → DsdtModified env fadt →
    DsdtSums env (openedMemory env memory rsdp rsdt xp) fadt dp

/-- What is not written behind the FADT step. -/
def Finished (env : Environment) (a : Nat) : Prop :=
  a = findRsdPointer env.configurationTable 0 ∨
    ∃ fp, env.fadtPages = .ok fp ∧ (a = fp.address ∨ ∃ dp, env.dsdtPages = .ok dp ∧ a = dp.address)

theorem Firmware.separate (fw : Firmware env memory rsdp rsdt tables xp) :
    Separate (rsdp.word 4 16) xp.address (Finished env) := by
  obtain ⟨hnull, hx, hf, hd⟩ := fw.ne_of_live fw.hrsdt
  refine ⟨hnull, fw.xsdtFresh.2.1, hx, ?_, ?_⟩
  · rintro a (rfl | ⟨fp, hfp, rfl | ⟨dp, hdp, rfl⟩⟩)
    · exact fw.apart.symm
    · exact (hf fp hfp).symm
    · exact (hd dp hdp).symm
  · rintro a (rfl | ⟨fp, hfp, rfl | ⟨dp, hdp, rfl⟩⟩)
    · exact (fw.ne_of_live fw.hrsdp).2.1
    · exact (fw.fadtFresh fp hfp).2.2.2
    · exact (fw.dsdtFresh dp hdp).2.2.1

theorem Lists.headed {w : Nat} {b : Block} (h : Lists w b tables) (hsmall : b.size < 2 ^ 32) : Headed w 0 b where
  small := hsmall
  counts := by
    intro _
    have := h.counted
    exact ⟨by omega, h.within⟩

/-- The RSDP after the run. -/
theorem newRsdp_sums (rsdp : Block) (xp : Pages) : (newRsdp rsdp xp).sum8 20 = 0 ∧
    ((2 ≤ (newRsdp rsdp xp).word 1 15 → (newRsdp rsdp xp).sum8 ((newRsdp rsdp xp).word 4 20) = 0) ↔
      (2 ≤ rsdp.word 1 15 → (rsdp.store 8 24 xp.address).SumsAlike 8 20 (rsdp.word 4 20))) := by
  have hrevision : (newRsdp rsdp xp).word 1 15 = rsdp.word 1 15 := by
    rw [newRsdp, Block.word_checksum (by decide), Block.word_store_outside (by decide)]
  have hlength : (newRsdp rsdp xp).word 4 20 = rsdp.word 4 20 := by
    rw [newRsdp, Block.word_checksum (by decide), Block.word_store_outside (by decide)]
  refine ⟨Block.sum8_checksum (by decide), ?_⟩
  rw [hrevision, hlength, newRsdp, Block.sum8_checksum_iff]

/-- What the FADT step leaves to the rest of the run. -/
structure Stepped (env : Environment) (memory : Heap) (rsdp rsdt fadt : Block) (xp : Pages) (s : Tables) : Prop where
  roots : Roots (rsdp.word 4 16) xp.address (Finished env) s.memory s
  rsdpSums : s.memory (findRsdPointer env.configurationTable 0) = some (newRsdp rsdp xp)
  fadtSums : ∀ fp, env.fadtPages = .ok fp → ∃ b, s.memory fp.address = some b ∧ Sums b
  dsdtSums : ∀ fp dp, env.fadtPages = .ok fp → env.dsdtPages = .ok dp → DsdtModified env fadt →
    ∃ b, s.memory dp.address = some b ∧ (Sums b ↔ DsdtSums env (openedMemory env memory rsdp rsdt xp) fadt dp)

theorem Firmware.step_sums (fw : Firmware env memory rsdp rsdt tables xp) (hapart : Apart env memory rsdt fadt xp)
    (hroom : 36 + 8 * tables.length ≤ 4096) (hsize : 32 ≤ rsdp.size) {old : Nat} (hold : old ∈ tables)
    (hfadt : memory old = some fadt) (hsig : signature fadt = fadtSignature)
    (hrun : patchFadt env old (opened env memory rsdp rsdt xp) = some s) : Stepped env memory rsdp rsdt fadt xp s := by
  have hr := fw.lists.headed hapart.small
  have hx := ((newXsdt_spec xp fw.lists.counted fw.lists.holds).2 hroom).1.headed (by
    rw [newXsdt_size fw.lists.counted]
    decide)
  obtain ⟨hpnull, hpx, hpf, hpd⟩ := fw.ne_of_live fw.hrsdp
  cases hpages : env.fadtPages with
  | error status =>
      rw [patchFadt, opened_memory, fw.openedMemory_table hold, hfadt, Option.bind_eq_bind, Option.bind_some, hpages] at hrun
      cases hrun
      constructor
      · exact ⟨rfl, rfl, ⟨_, fw.openedMemory_rsdt, hr⟩, ⟨_, fw.openedMemory_xsdt, hx⟩, fun _ _ => rfl⟩
      · exact Heap.set_same
      · intro fp h
        rw [hpages] at h
        cases h
      · intro fp dp h
        rw [hpages] at h
        cases h
  | ok fp =>
      rw [fw.patchFadt_iff hroom hsize hold hfadt hsig hpages] at hrun
      obtain ⟨after, new, f, hpatched, hf, -, -, -, rfl⟩ := hrun
      obtain ⟨facs, hfacs, -, -⟩ := fw.facs_live hsize hold hfadt hsig hpatched hf
      obtain ⟨-, hfx, hff, hfd⟩ := fw.ne_of_live hfacs
      obtain ⟨-, hrx, hrf, hrd⟩ := fw.ne_of_live fw.hrsdt
      obtain ⟨-, hfnull, -, hfadtx⟩ := fw.fadtFresh fp hpages
      have hflagged : Headed 4 0 (flagged (firmwareCtrl fadt) (rsdp.word 4 16) rsdt) :=
        (fw.lists.of_agrees (flagged_agrees _ _ _) (flagged_size _ _ _)).headed (by
          rw [flagged_size]
          exact hapart.small)
      constructor
      · exact ⟨rfl, rfl, ⟨_, stepped_rsdt hrx, hflagged.store (by decide) (by decide)⟩,
          ⟨_, stepped_xsdt, hx.store (by decide) (by decide)⟩, fun _ _ => rfl⟩
      · have hpoint : openedMemory env memory rsdp rsdt xp (findRsdPointer env.configurationTable 0) =
            some (newRsdp rsdp xp) := Heap.set_same
        rw [← hpoint, ← patched_other hpatched hpd]
        exact stepped_other hapart.facs.symm (hpf fp hpages) fw.apart.symm hpx
      · intro fp' h
        rw [hpages] at h
        cases h
        exact ⟨_, stepped_fadt (hrf fp hpages).symm hfadtx, lastFadt_sums hpatched⟩
      · intro fp' dp h hdp hmodified
        rw [hpages] at h
        cases h
        obtain ⟨dsdt, hdsdt, hiff⟩ := patchDsdt_sums hmodified hdp hpatched
        obtain ⟨-, -, hdx, hdf⟩ := fw.dsdtFresh dp hdp
        refine ⟨dsdt, ?_, hiff⟩
        rw [← hdsdt]
        exact stepped_other (hfd dp hdp).symm (hdf fp hpages) (hrd dp hdp).symm hdx

/-- The parts of a run that succeeds. -/
theorem patchAcpi_ok (h : patchAcpi env memory = some (.ok s)) : ∃ s₁ s₂ s₃ first last,
    toFadt env memory = some (.ok s₁) ∧ dropTables env.settings s₁ = some s₂ ∧
      env.tableFiles.foldlM loadTable s₂ = some s₃ ∧ sumRoot s₃.rsdt s₃.memory = some first ∧
      sumRoot s₃.xsdt first = some last ∧ s = { s₃ with memory := last } := by
  rw [patchAcpi, Option.bind_eq_bind, Option.bind_eq_some_iff] at h
  obtain ⟨opened, hopened, h⟩ := h
  cases opened with
  | error status => cases h
  | ok s₁ =>
      simp only [Option.bind_eq_bind, Option.bind_eq_some_iff] at h
      obtain ⟨s₂, hdrop, s₃, hload, first, hfirst, last, hlast, heq⟩ := h
      cases heq
      exact ⟨s₁, s₂, s₃, first, last, hopened, hdrop, hload, hfirst, hlast, rfl⟩

end Whole

/-! ### An RSDP of revision 2 -/

/-- Revision 2, 36 bytes long, with both checksums; the XSDT address is as given. -/
def longRsdp (checksum extended : UInt8) (xsdt : List UInt8) : Block :=
  tableOf ([82, 83, 68, 32, 80, 84, 82, 32, checksum, 0, 0, 0, 0, 0, 0, 2, 0, 16, 0, 0, 36, 0, 0, 0] ++ xsdt ++
    [extended, 0, 0, 0])

def fadtInFront : List UInt8 := [0, 48, 0, 0, 0, 64, 0, 0]

/-- The firmware with both sums right and an XSDT address whose bytes sum to one, as those of the new address do. -/
def evenMemory : Heap := pairMemory (longRsdp 207 219 [0, 0, 0, 1, 0, 0, 0, 0]) fadtInFront

/-- The same, but without an XSDT before the run. -/
def oddMemory : Heap := pairMemory (longRsdp 207 220 [0, 0, 0, 0, 0, 0, 0, 0]) fadtInFront

theorem pairMemory_apart (rsdp : Block) :
    Apart twoPages (pairMemory rsdp fadtInFront) (pairRsdt fadtInFront) smallFadt ⟨0x10000, fun _ => 0⟩ where
  facs := by decide
  small := by decide
  files := fun _ _ h => absurd h List.not_mem_nil

end BareBoot.Acpi
