import BareBoot.FadtReplacement

/-! Whether the root tables have room for the entries that `PatchACPI` writes. The RSDT is memory of the firmware,
as long as its `Header.Length` was before, and the XSDT is one page. -/

namespace BareBoot.Acpi

/-! ### Insertions into one root -/

section Append

variable {w value : Nat} {b : Block} {values : List Nat}

/-- What one insertion makes of a root. -/
def appended (w value : Nat) (b : Block) : Block :=
  let written := b.store w (length b) value
  setLength written ((length written + w) % 2 ^ 32)

def appendAll (w : Nat) (values : List Nat) (b : Block) : Block := values.foldl (fun b value => appended w value b) b

theorem size_appended : (appended w value b).size = b.size := rfl

theorem overrun_appended_iff (hw : 0 < w) :
    (appended w value b).overrun = false ↔ b.overrun = false ∧ length b + w ≤ b.size ∧ 8 ≤ b.size := by
  unfold appended setLength
  rw [Block.overrun_store_iff (by decide), Block.overrun_store_iff hw, Block.size_store, and_assoc]

theorem length_appended (hlen : 36 ≤ length b) (hsmall : length b + w < 2 ^ 32) :
    length (appended w value b) = length b + w := by
  have hkept : length (b.store w (length b) value) = length b := Block.word_store_outside (Or.inl (by omega))
  simp only [appended, hkept, Nat.mod_eq_of_lt hsmall]
  exact length_setLength hsmall

theorem overrun_of_appendAll (hw : 0 < w) (h : (appendAll w values b).overrun = false) : b.overrun = false := by
  induction values generalizing b with
  | nil => exact h
  | cons value values ih => exact ((overrun_appended_iff hw).mp (ih h)).1

/-- All insertions stay within the root exactly when there is room for all of them. -/
theorem appendAll_within_iff (hw : 0 < w) (hover : b.overrun = false) (hlen : 36 ≤ length b) (hin : length b ≤ b.size)
    (hsmall : b.size < 2 ^ 32) :
    (appendAll w values b).overrun = false ↔ length b + w * values.length ≤ b.size := by
  induction values generalizing b with
  | nil => exact iff_of_true hover hin
  | cons value values ih =>
      rw [List.length_cons, Nat.mul_succ]
      by_cases hroom : length b + w ≤ b.size
      · have hnext := @length_appended w value b hlen (hroom.trans_lt hsmall)
        have hkept : (appended w value b).overrun = false := (overrun_appended_iff hw).mpr ⟨hover, hroom, by omega⟩
        have hrest := ih hkept (by omega) (by rw [hnext]; exact hroom) hsmall
        rw [hnext, size_appended] at hrest
        rw [show length b + (w * values.length + w) = length b + w + w * values.length by omega]
        exact hrest
      · constructor
        · intro h
          exact absurd ((overrun_appended_iff hw).mp (overrun_of_appendAll hw h)).2.1 hroom
        · intro h
          omega

end Append

/-! ### The files that are loaded -/

/-- Where the tables of the files go that are read and get pages. -/
def loadedAddresses (files : List (Option (File × Except Status Pages))) : List Nat :=
  files.filterMap fun file =>
    match file with
    | some (_, .ok pages) => some pages.address
    | _ => none

theorem loadTable_ok {s : Tables} {r x : Block} (hr : s.memory s.rsdt = some r) (hx : s.memory s.xsdt = some x)
    (hrnull : s.rsdt ≠ 0) (hxnull : s.xsdt ≠ 0) (hapart : s.rsdt ≠ s.xsdt) (file : File) {pages : Pages}
    (hrpages : pages.address ≠ s.rsdt) (hxpages : pages.address ≠ s.xsdt) :
    loadTable s (some (file, .ok pages)) =
      some ⟨s.rsdt, s.xsdt, ((s.memory.set pages.address (tableCopy file.byte file.size pages)).set s.rsdt
        (appended 4 pages.address r)).set s.xsdt (appended 8 pages.address x)⟩ := by
  have hr' : (s.memory.set pages.address (tableCopy file.byte file.size pages)) s.rsdt = some r := by
    rw [Heap.set_other hrpages.symm, hr]
  have hx' : ((s.memory.set pages.address (tableCopy file.byte file.size pages)).set s.rsdt
      (appended 4 pages.address r)) s.xsdt = some x := by
    rw [Heap.set_other hapart.symm, Heap.set_other hxpages.symm, hx]
  have hfirst : appendEntry 4 s.rsdt pages.address
      (s.memory.set pages.address (tableCopy file.byte file.size pages)) =
        some ((s.memory.set pages.address (tableCopy file.byte file.size pages)).set s.rsdt
          (appended 4 pages.address r)) := by
    rw [appendEntry, if_neg hrnull, hr']
    rfl
  have hlast : appendEntry 8 s.xsdt pages.address
      ((s.memory.set pages.address (tableCopy file.byte file.size pages)).set s.rsdt (appended 4 pages.address r)) =
        some (((s.memory.set pages.address (tableCopy file.byte file.size pages)).set s.rsdt
          (appended 4 pages.address r)).set s.xsdt (appended 8 pages.address x)) := by
    rw [appendEntry, if_neg hxnull, hx']
    rfl
  simp only [loadTable, insertTable, Option.bind_eq_bind, hfirst, hlast, Option.bind_some, Option.map_some]

/-- The files append their tables to both roots. -/
theorem loadTables_eq {files : List (Option (File × Except Status Pages))} {s : Tables} {r x : Block}
    (hr : s.memory s.rsdt = some r) (hx : s.memory s.xsdt = some x) (hrnull : s.rsdt ≠ 0) (hxnull : s.xsdt ≠ 0)
    (hapart : s.rsdt ≠ s.xsdt) (hfiles : ∀ a ∈ loadedAddresses files, a ≠ s.rsdt ∧ a ≠ s.xsdt) :
    ∃ s', files.foldlM loadTable s = some s' ∧ s'.rsdt = s.rsdt ∧ s'.xsdt = s.xsdt ∧
      s'.memory s.rsdt = some (appendAll 4 (loadedAddresses files) r) ∧
      s'.memory s.xsdt = some (appendAll 8 (loadedAddresses files) x) := by
  induction files generalizing s r x with
  | nil => exact ⟨s, rfl, rfl, rfl, hr, hx⟩
  | cons file files ih =>
      rw [List.foldlM_cons]
      match file with
      | none => exact ih hr hx hrnull hxnull hapart hfiles
      | some (file, .error status) => exact ih hr hx hrnull hxnull hapart hfiles
      | some (file, .ok pages) =>
          have haddresses : loadedAddresses (some (file, .ok pages) :: files) = pages.address :: loadedAddresses files := rfl
          rw [haddresses, List.forall_mem_cons] at hfiles
          rw [loadTable_ok hr hx hrnull hxnull hapart file hfiles.1.1 hfiles.1.2, haddresses]
          exact ih (s := ⟨s.rsdt, s.xsdt, _⟩) ((Heap.set_other hapart).trans Heap.set_same) Heap.set_same hrnull hxnull
            hapart hfiles.2

/-! ### The tables that are dropped -/

/-- The drops that the settings ask for, in their order. -/
def dropList (settings : Settings) : List (Nat × Nat) :=
  (if settings.dropDmar then [(dmarSign, 0)] else []) ++ settings.acpiDropTables ++
    if settings.dropSsdt then [(ssdtSignature, 0)] else []

theorem dropTables_eq (settings : Settings) (s : Tables) :
    dropTables settings s = (dropList settings).foldlM (fun s table => dropBoth table.1 table.2 s) s := by
  unfold dropTables dropList onlyIf
  rw [List.foldlM_append, List.foldlM_append]
  cases settings.dropDmar <;> cases settings.dropSsdt <;> simp [Option.bind_assoc]

/-- The entries that the drops leave. -/
def remaining (names : Heap) (drops : List (Nat × Nat)) (l : List Nat) : List Nat :=
  drops.foldl (fun l table => keptEntries (stays table.1 table.2 names) l) l

section Drops

variable {s : Tables} {names : Heap} {r x : Block}

/-- Both roots are in memory and count their entries, and the tables these are for have the names given. -/
structure Held (s : Tables) (names : Heap) (r x : Block) : Prop where
  rsdt : s.memory s.rsdt = some r
  xsdt : s.memory s.xsdt = some x
  apart : s.rsdt ≠ s.xsdt
  rcounted : length r = 36 + 4 * (entries 4 r).length
  rwithin : length r ≤ r.size
  xcounted : length x = 36 + 8 * (entries 8 x).length
  xwithin : length x ≤ x.size
  live : ∀ a, a ∈ entries 4 r ∨ a ∈ entries 8 x → a ≠ 0 → ∃ table, s.memory a = some table
  named : ∀ a, a ∈ entries 4 r ∨ a ∈ entries 8 x → a ≠ 0 → ∀ sig tableId,
    named sig tableId s.memory a = named sig tableId names a

theorem keptEntries_congr {p q : Nat → Bool} {l : List Nat} (h : ∀ a ∈ l, p a = q a) : keptEntries p l = keptEntries q l := by
  rw [keptEntries, keptEntries, List.filter_congr h]

theorem mem_of_mem_keptEntries {p : Nat → Bool} {l : List Nat} {a : Nat} (h : a ∈ keptEntries p l) : a ∈ l :=
  (List.mem_filter.mp (List.mem_of_mem_take h)).1

/-- One drop on one root. -/
theorem dropTable_kept {w root : Nat} {memory : Heap} {b : Block} (hw : 0 < w) (sig tableId : Nat)
    (hroot : memory root = some b) (hcounted : length b = 36 + w * (entries w b).length) (hwithin : length b ≤ b.size)
    (hlive : ∀ a ∈ entries w b, a ≠ 0 → ∃ table, memory a = some table) :
    ∃ c followed, Frame b c ∧ entries w c = keptEntries (stays sig tableId memory) (entries w b) ∧
      length c = 36 + w * (entries w c).length ∧ length c ≤ c.size ∧
      dropTable w root sig tableId memory = some (memory.set root c, followed) := by
  have hold := entries_of_length hw hcounted
  obtain ⟨c, hdropped, hrun⟩ := dropTable_spec sig tableId hw hroot (hcounted ▸ hwithin) hcounted (by rwa [← hold])
  obtain ⟨hentries, hlength⟩ := entries_dropped hw hcounted hdropped
  refine ⟨c, _, hdropped.frame, hentries, hlength, ?_, hrun⟩
  rw [hlength, hentries, length_keptEntries, hdropped.frame.size]
  refine (Nat.add_le_add_left (Nat.mul_le_mul_left w ?_) 36).trans (hcounted ▸ hwithin)
  exact (List.length_filter_le _ _).trans (List.length_filter_le _ _)

theorem stays_named {memory : Heap} {sig tableId a : Nat}
    (h : a ≠ 0 → Acpi.named sig tableId memory a = Acpi.named sig tableId names a) :
    stays sig tableId memory a = stays sig tableId names a := by
  by_cases ha : a = 0
  · simp [stays, ha]
  · rw [stays, stays, h ha]

theorem Held.dropBoth (h : Held s names r x) (sig tableId : Nat) :
    ∃ s' r' x', Acpi.dropBoth sig tableId s = some s' ∧ s'.rsdt = s.rsdt ∧ s'.xsdt = s.xsdt ∧ Held s' names r' x' ∧
      Frame r r' ∧ Frame x x' ∧ entries 4 r' = keptEntries (stays sig tableId names) (entries 4 r) ∧
      entries 8 x' = keptEntries (stays sig tableId names) (entries 8 x) := by
  obtain ⟨r', rfollowed, hrframe, hrentries, hrcounted, hrwithin, hrrun⟩ := dropTable_kept (by decide) sig tableId h.rsdt
    h.rcounted h.rwithin (fun a ha => h.live a (Or.inl ha))
  have hx' : (s.memory.set s.rsdt r') s.xsdt = some x := by rw [Heap.set_other h.apart.symm, h.xsdt]
  obtain ⟨x', xfollowed, hxframe, hxentries, hxcounted, hxwithin, hxrun⟩ := dropTable_kept (by decide) sig tableId hx'
    h.xcounted h.xwithin (fun a ha hne => isSome_set (h.live a (Or.inr ha) hne))
  rw [stays_set sig tableId h.rsdt hrframe] at hxentries
  have hrkept : entries 4 r' = keptEntries (stays sig tableId names) (entries 4 r) :=
    hrentries.trans (keptEntries_congr fun a ha => stays_named fun hne => h.named a (Or.inl ha) hne sig tableId)
  have hxkept : entries 8 x' = keptEntries (stays sig tableId names) (entries 8 x) :=
    hxentries.trans (keptEntries_congr fun a ha => stays_named fun hne => h.named a (Or.inr ha) hne sig tableId)
  have hsub : ∀ a, a ∈ entries 4 r' ∨ a ∈ entries 8 x' → a ∈ entries 4 r ∨ a ∈ entries 8 x := by
    rw [hrkept, hxkept]
    rintro a (ha | ha)
    · exact Or.inl (mem_of_mem_keptEntries ha)
    · exact Or.inr (mem_of_mem_keptEntries ha)
  refine ⟨⟨s.rsdt, s.xsdt, (s.memory.set s.rsdt r').set s.xsdt x'⟩, r', x', ?_, rfl, rfl, ?_, hrframe, hxframe, hrkept, hxkept⟩
  · simp only [Acpi.dropBoth, dropTableFromRsdt, dropTableFromXsdt, hrrun, hxrun, Option.bind_eq_bind, Option.bind_some]
  · refine ⟨(Heap.set_other h.apart).trans Heap.set_same, Heap.set_same, h.apart, hrcounted, hrwithin, hxcounted,
      hxwithin, ?_, ?_⟩
    · intro a ha hne
      exact isSome_set (isSome_set (h.live a (hsub a ha) hne))
    · intro a ha hne sig' tableId'
      rw [named_set hx' hxframe, named_set h.rsdt hrframe]
      exact h.named a (hsub a ha) hne sig' tableId'

theorem Held.drops (h : Held s names r x) (drops : List (Nat × Nat)) :
    ∃ s' r' x', drops.foldlM (fun s table => Acpi.dropBoth table.1 table.2 s) s = some s' ∧ s'.rsdt = s.rsdt ∧
      s'.xsdt = s.xsdt ∧ Held s' names r' x' ∧ Frame r r' ∧ Frame x x' ∧
      entries 4 r' = remaining names drops (entries 4 r) ∧ entries 8 x' = remaining names drops (entries 8 x) := by
  induction drops generalizing s r x with
  | nil => exact ⟨s, r, x, rfl, rfl, rfl, h, Frame.refl r, Frame.refl x, rfl, rfl⟩
  | cons table drops ih =>
      obtain ⟨s₁, r₁, x₁, hrun, hrsdt, hxsdt, hheld, hrframe, hxframe, hr, hx⟩ := h.dropBoth table.1 table.2
      obtain ⟨s', r', x', hrest, hrsdt', hxsdt', hheld', hrframe', hxframe', hr', hx'⟩ := ih hheld
      refine ⟨s', r', x', ?_, hrsdt'.trans hrsdt, hxsdt'.trans hxsdt, hheld', hrframe.trans hrframe',
        hxframe.trans hxframe', ?_, ?_⟩
      · rw [List.foldlM_cons, hrun]
        exact hrest
      · rw [hr', hr]
        rfl
      · rw [hx', hx]
        rfl

/-- What the drops and the loaded tables need of the two roots. -/
theorem Held.changed_iff (h : Held s names r x) (hrnull : s.rsdt ≠ 0) (hxnull : s.xsdt ≠ 0) (hrover : r.overrun = false)
    (hxover : x.overrun = false) (hrsize : r.size < 2 ^ 32) (hxsize : x.size < 2 ^ 32) (settings : Settings)
    {files : List (Option (File × Except Status Pages))}
    (hfiles : ∀ a ∈ loadedAddresses files, a ≠ s.rsdt ∧ a ≠ s.xsdt) :
    (∃ s' r' x', (dropTables settings s).bind (files.foldlM loadTable) = some s' ∧ s'.memory s'.rsdt = some r' ∧
        s'.memory s'.xsdt = some x' ∧ r'.overrun = false ∧ x'.overrun = false) ↔
      36 + 4 * ((remaining names (dropList settings) (entries 4 r)).length + (loadedAddresses files).length) ≤ r.size ∧
        36 + 8 * ((remaining names (dropList settings) (entries 8 x)).length + (loadedAddresses files).length) ≤ x.size := by
  obtain ⟨s₁, r₁, x₁, hdrops, hrsdt, hxsdt, hheld, hrframe, hxframe, hr, hx⟩ := h.drops (dropList settings)
  obtain ⟨s₂, hloads, hrsdt', hxsdt', hr', hx'⟩ := loadTables_eq hheld.rsdt hheld.xsdt (hrsdt ▸ hrnull) (hxsdt ▸ hxnull)
    hheld.apart (fun a ha => by rw [hrsdt, hxsdt]; exact hfiles a ha)
  have hrcounted := hheld.rcounted
  have hxcounted := hheld.xcounted
  have hrroom := @appendAll_within_iff 4 _ (loadedAddresses files) (by decide) (hrframe.overrun.trans hrover)
    (by omega) hheld.rwithin (by rw [hrframe.size]; exact hrsize)
  have hxroom := @appendAll_within_iff 8 _ (loadedAddresses files) (by decide) (hxframe.overrun.trans hxover)
    (by omega) hheld.xwithin (by rw [hxframe.size]; exact hxsize)
  rw [hrcounted, hrframe.size, hr, Nat.add_assoc, ← Nat.mul_add] at hrroom
  rw [hxcounted, hxframe.size, hx, Nat.add_assoc, ← Nat.mul_add] at hxroom
  rw [← hrroom, ← hxroom, dropTables_eq, hdrops, Option.bind_some, hloads]
  rw [← hrsdt'] at hr'
  rw [← hxsdt'] at hx'
  constructor
  · rintro ⟨s', r', x', heq, hrblock, hxblock, hrkept, hxkept⟩
    cases heq
    rw [hr', Option.some_inj] at hrblock
    rw [hx', Option.some_inj] at hxblock
    subst hrblock hxblock
    exact ⟨hrkept, hxkept⟩
  · rintro ⟨hrkept, hxkept⟩
    exact ⟨s₂, _, _, rfl, hr', hx', hrkept, hxkept⟩

end Drops

/-! ### The roots behind the FADT step -/

section Step

variable {env : Environment} {memory : Heap} {rsdp rsdt fadt : Block} {tables : List Nat} {xp : Pages} {s : Tables}

/-- The tables of the firmware and the new FADT, as the drops find them by name. -/
def namesAt (env : Environment) (memory : Heap) (fadt : Block) : Heap :=
  match env.fadtPages with
  | .ok fp => memory.set fp.address (newFadt env.settings (biosDsdt fadt) fadt fp)
  | .error _ => memory

/-- The entries of a root behind the FADT step. -/
def firstEntry (env : Environment) (l : List Nat) : List Nat :=
  match env.fadtPages with
  | .ok fp => fp.address :: l.tail
  | .error _ => l

theorem named_of_agrees {names memory' : Heap} {a : Nat} {b c : Block} (hb : names a = some b) (hc : memory' a = some c)
    (h : b.Agrees Naming c) (sig tableId : Nat) : named sig tableId memory' a = named sig tableId names a := by
  simp only [named, hb, hc, signature_of_agrees h, oemTableId_of_agrees h]

theorem naming_store (b : Block) {width off : Nat} (value : Nat) (h : 24 ≤ off) : b.Agrees Naming (b.store width off value) :=
  Block.agrees_store fun a ha => by
    unfold Naming at ha
    omega

theorem naming_facsFields (facs : Nat) (b : Block) : b.Agrees Naming (facsFields facs b) := by
  have hctrl : b.Agrees Naming (if facs ≠ 0 then b.store 4 36 facs else b) := by
    split_ifs
    · exact naming_store b facs (by decide)
    · exact Block.Agrees.refl _ _
  unfold facsFields
  dsimp only
  generalize (if facs ≠ 0 then b.store 4 36 facs else b) = c at hctrl ⊢
  split_ifs
  · exact hctrl.trans (naming_store _ _ (by decide))
  · exact hctrl.trans (naming_store _ _ (by decide))
  · exact hctrl

/-- What the step adds to the new FADT leaves its name. -/
theorem lastFadt_naming {biosDsdt facs count : Nat} {old new : Block} {after memory' : Heap} {fp : Pages}
    (h : patchDsdt env biosDsdt memory' (newFadt env.settings biosDsdt old fp) = some (after, new)) :
    (newFadt env.settings biosDsdt old fp).Agrees Naming ((facsFields facs new).checksum 9 count) := by
  have hnew : (newFadt env.settings biosDsdt old fp).Agrees Naming new := by
    rcases (patchDsdt_some h).2 with rfl | ⟨address, rfl⟩
    · exact Block.Agrees.refl _ _
    · exact (naming_store _ _ (by decide)).trans (naming_store _ _ (by decide))
  refine (hnew.trans (naming_facsFields facs new)).trans ?_
  intro a ha
  exact Block.byte_checksum (by unfold Naming at ha; omega)

theorem firstEntry_ok {fp : Pages} (hfp : env.fadtPages = .ok fp) (l : List Nat) :
    firstEntry env l = fp.address :: l.tail := by
  rw [firstEntry, hfp]

theorem namesAt_ok {fp : Pages} (hfp : env.fadtPages = .ok fp) :
    namesAt env memory fadt = memory.set fp.address (newFadt env.settings (biosDsdt fadt) fadt fp) := by
  rw [namesAt, hfp]

/-- A listed table behind the step: its name is as before. -/
theorem Firmware.stepped_table (fw : Firmware env memory rsdp rsdt tables xp) {fp : Pages} (hfp : env.fadtPages = .ok fp)
    {after : Heap} {biosDsdt : Nat} {dsdt new f last xb : Block} {facs : Nat}
    (hpatched : patchDsdt env biosDsdt (openedMemory env memory rsdp rsdt xp) dsdt = some (after, new))
    (hf : after facs = some f) {a : Nat} (ha : a ∈ tables) :
    ∃ b c, memory a = some b ∧ stepped after facs fp.address (rsdp.word 4 16) xp.address f last rsdt xb a = some c ∧
      b.Agrees Naming c := by
  obtain ⟨b, hb⟩ := fw.live a ha
  obtain ⟨-, hx, hfadt, -⟩ := fw.ne_of_listed ha
  have hafter : after a = some b := by
    rw [patched_other hpatched (fw.ne_of_live hb).2.2.2, fw.openedMemory_table ha, hb]
  refine ⟨b, ?_⟩
  by_cases hr : a = rsdp.word 4 16
  · subst hr
    rw [fw.hrsdt, Option.some_inj] at hb
    subst hb
    refine ⟨_, fw.hrsdt, stepped_rsdt hx, ?_⟩
    refine Block.Agrees.trans ?_ (naming_store _ _ (by decide))
    unfold flagged
    split_ifs
    · exact naming_store _ _ (by decide)
    · exact Block.Agrees.refl _ _
  · by_cases hfacs : a = facs
    · subst hfacs
      rw [hafter, Option.some_inj] at hf
      subst hf
      refine ⟨b.store 1 32 2, hb, ?_, naming_store _ _ (by decide)⟩
      rw [stepped, Heap.set_other hx, Heap.set_other hr, Heap.set_other (hfadt fp hfp), Heap.set_same]
    · exact ⟨b, hb, (stepped_other hfacs (hfadt fp hfp) hr hx).trans hafter, Block.Agrees.refl _ _⟩

theorem Firmware.mem_tables (fw : Firmware env memory rsdp rsdt tables xp) {a : Nat} (h : a ∈ entries 4 rsdt)
    (hne : a ≠ 0) : a ∈ tables := by
  rw [← fw.lists.holds]
  exact List.mem_filter.mpr ⟨h, by simp [listed, hne]⟩

/-- What the drops start with. -/
structure Rooted (env : Environment) (memory : Heap) (rsdp rsdt fadt : Block) (tables : List Nat) (xp : Pages)
    (s : Tables) (r x : Block) : Prop where
  rsdtAt : s.rsdt = rsdp.word 4 16
  xsdtAt : s.xsdt = xp.address
  held : Held s (namesAt env memory fadt) r x
  rsize : r.size = rsdt.size
  rover : r.overrun = false
  xsize : x.size = 4096
  xover : x.overrun = false
  rentries : entries 4 r = firstEntry env (entries 4 rsdt)
  xentries : entries 8 x = firstEntry env tables

/-- Without a page for the new FADT the roots are as they were opened. -/
theorem Firmware.rooted_error (fw : Firmware env memory rsdp rsdt tables xp) (hroom : 36 + 8 * tables.length ≤ 4096)
    {status : Status} (hpages : env.fadtPages = .error status) :
    Rooted env memory rsdp rsdt fadt tables xp (opened env memory rsdp rsdt xp) rsdt (newXsdt rsdt xp) := by
  obtain ⟨hxover, hxlists⟩ := newXsdt_spec xp fw.lists.counted fw.lists.holds
  obtain ⟨hxlists, hxentries⟩ := hxlists hroom
  have hnames : namesAt env memory fadt = memory := by rw [namesAt, hpages]
  have hfirst : ∀ l, firstEntry env l = l := fun l => by rw [firstEntry, hpages]
  have hmem : ∀ a, a ∈ entries 4 rsdt ∨ a ∈ entries 8 (newXsdt rsdt xp) → a ≠ 0 → a ∈ tables := by
    rintro a (ha | ha) hne
    · exact fw.mem_tables ha hne
    · rwa [hxentries] at ha
  refine ⟨rfl, rfl, ?_, rfl, fw.whole _ _ fw.hrsdt, newXsdt_size fw.lists.counted, hxover.mpr hroom, (hfirst _).symm,
    hxentries.trans (hfirst _).symm⟩
  refine ⟨fw.openedMemory_rsdt, fw.openedMemory_xsdt, (fw.ne_of_live fw.hrsdt).2.1, fw.lists.counted, fw.lists.within,
    hxlists.counted, hxlists.within, ?_, ?_⟩
  · intro a ha hne
    rw [opened_memory, fw.openedMemory_table (hmem a ha hne)]
    exact fw.live a (hmem a ha hne)
  · intro a ha hne sig tableId
    rw [hnames, opened_memory]
    simp only [named, fw.openedMemory_table (hmem a ha hne)]

/-- A root with another first entry. -/
theorem counted_setFirst {w value : Nat} {b : Block} (hw : 0 < w) (hcounted : length b = 36 + w * (entries w b).length)
    (hwithin : length b ≤ b.size) (hne : entries w b ≠ []) (hvalue : value < 256 ^ w) :
    length (b.store w 36 value) = 36 + w * (entries w (b.store w 36 value)).length ∧
      length (b.store w 36 value) ≤ (b.store w 36 value).size ∧ entries w (b.store w 36 value) = value :: (entries w b).tail := by
  obtain ⟨first, rest, hentries⟩ := List.exists_cons_of_ne_nil hne
  obtain ⟨hlen, hnew⟩ := entries_setFirst hw hcounted hentries hvalue
  rw [hlen, hnew, hcounted, hentries, List.tail_cons]
  refine ⟨rfl, ?_, rfl⟩
  rw [← hentries, ← hcounted]
  exact hwithin

/-- With a page for the new FADT both roots have it in front. -/
theorem Firmware.rooted_ok (fw : Firmware env memory rsdp rsdt tables xp) (hroom : 36 + 8 * tables.length ≤ 4096)
    (hsize : 32 ≤ rsdp.size) {old : Nat} (hold : old ∈ tables) (hfadt : memory old = some fadt)
    (hsig : signature fadt = fadtSignature) {fp : Pages} (hpages : env.fadtPages = .ok fp)
    (hrun : patchFadt env old (opened env memory rsdp rsdt xp) = some s) :
    ∃ r x, Rooted env memory rsdp rsdt fadt tables xp s r x := by
  obtain ⟨hxover, hxlists⟩ := newXsdt_spec xp fw.lists.counted fw.lists.holds
  obtain ⟨hxlists, hxentries⟩ := hxlists hroom
  have hxsize : (newXsdt rsdt xp).size = 4096 := newXsdt_size fw.lists.counted
  obtain ⟨-, hrx, hrf, -⟩ := fw.ne_of_live fw.hrsdt
  obtain ⟨-, -, hflt, hfx⟩ := fw.fadtFresh fp hpages
  have hfltr : fp.address < 256 ^ 4 := by omega
  have hfltx : fp.address < 256 ^ 8 := by omega
  rw [fw.patchFadt_iff hroom hsize hold hfadt hsig hpages] at hrun
  obtain ⟨after, new, f, hpatched, hf, -, -, hlong, rfl⟩ := hrun
  have hflagged := flagged_agrees (firmwareCtrl fadt) (rsdp.word 4 16) rsdt
  have hrsize := flagged_size (firmwareCtrl fadt) (rsdp.word 4 16) rsdt
  have hrne : entries 4 rsdt ≠ [] := by
    intro hnone
    have hholds := fw.lists.holds
    rw [hnone] at hholds
    rw [← hholds] at hold
    exact List.not_mem_nil hold
  have hxne : entries 8 (newXsdt rsdt xp) ≠ [] := hxentries ▸ List.ne_nil_of_mem hold
  have hflists := fw.lists.of_agrees hflagged hrsize
  have hfentries := entries_of_agrees (w := 4) hflagged
  rw [← hfentries] at hrne
  obtain ⟨hrcounted, hrwithin, hrentries⟩ := @counted_setFirst 4 fp.address
    (flagged (firmwareCtrl fadt) (rsdp.word 4 16) rsdt) (by decide) hflists.counted hflists.within hrne hfltr
  obtain ⟨hxcounted, hxwithin, hxnew⟩ := @counted_setFirst 8 fp.address (newXsdt rsdt xp) (by decide) hxlists.counted
    hxlists.within hxne hfltx
  rw [hfentries] at hrentries
  rw [hxentries] at hxnew
  have hmem : ∀ a, a ∈ entries 4 ((flagged (firmwareCtrl fadt) (rsdp.word 4 16) rsdt).store 4 36 fp.address) ∨
      a ∈ entries 8 ((newXsdt rsdt xp).store 8 36 fp.address) → a ≠ 0 → a = fp.address ∨ a ∈ tables := by
    rw [hrentries, hxnew]
    rintro a (ha | ha) hne
    · exact (List.mem_cons.mp ha).imp_right fun ha => fw.mem_tables (List.mem_of_mem_tail ha) hne
    · exact (List.mem_cons.mp ha).imp_right List.mem_of_mem_tail
  refine ⟨_, _, rfl, rfl, ⟨stepped_rsdt hrx, stepped_xsdt, hrx, hrcounted, hrwithin, hxcounted, hxwithin, ?_, ?_⟩,
    Block.size_store.trans hrsize, (flagged_within _ _ (fw.whole _ _ fw.hrsdt) _).mpr hlong, Block.size_store.trans hxsize,
    ?_, ?_, ?_⟩
  · intro a ha hne
    rcases hmem a ha hne with rfl | hlist
    · exact ⟨_, stepped_fadt (hrf fp hpages).symm hfx⟩
    · obtain ⟨b, c, -, hc, -⟩ := fw.stepped_table hpages hpatched hf hlist
      exact ⟨c, hc⟩
  · intro a ha hne sig tableId
    rw [namesAt_ok hpages]
    rcases hmem a ha hne with rfl | hlist
    · exact named_of_agrees Heap.set_same (stepped_fadt (hrf fp hpages).symm hfx) (lastFadt_naming hpatched) sig tableId
    · obtain ⟨b, c, hb, hc, hagrees⟩ := fw.stepped_table hpages hpatched hf hlist
      exact named_of_agrees ((Heap.set_other ((fw.ne_of_listed hlist).2.2.1 fp hpages)).trans hb) hc hagrees sig tableId
  · rw [Block.overrun_store (by rw [hxsize]; decide), hxover]
    exact hroom
  · rw [hrentries, firstEntry_ok hpages]
  · rw [hxnew, firstEntry_ok hpages]

end Step

/-! ### The run -/

section Room

variable {env : Environment} {memory : Heap} {rsdp rsdt fadt : Block} {tables : List Nat} {xp : Pages} {s : Tables}

/-- Every entry that is written stands in its root: those of the loop that builds the XSDT, the new FADT, and what
the drops move and the loaded tables append. -/
structure EntriesOwned (env : Environment) (memory : Heap) (rsdt : Block) (xp : Pages) : Prop where
  built : (newXsdt rsdt xp).overrun = false
  first : ∀ s old, openTables env memory = some (.ok (s, old)) → ∃ r x, s.memory s.rsdt = some r ∧
    s.memory s.xsdt = some x ∧ ∀ value, (r.store 4 36 value).overrun = false ∧ (x.store 8 36 value).overrun = false
  changed : ∀ s, toFadt env memory = some (.ok s) →
    ∃ s' r x, (dropTables env.settings s).bind (env.tableFiles.foldlM loadTable) = some s' ∧
      s'.memory s'.rsdt = some r ∧ s'.memory s'.xsdt = some x ∧ r.overrun = false ∧ x.overrun = false

/-- What is left behind the drops and the tables loaded fit the RSDT as it was, and a page. -/
def RootsFit (env : Environment) (memory : Heap) (rsdt fadt : Block) (tables : List Nat) : Prop :=
  let left := remaining (namesAt env memory fadt) (dropList env.settings)
  (left (firstEntry env (entries 4 rsdt))).length + (loadedAddresses env.tableFiles).length ≤ (entries 4 rsdt).length ∧
    36 + 8 * ((left (firstEntry env tables)).length + (loadedAddresses env.tableFiles).length) ≤ 4096

theorem Firmware.changed_iff (fw : Firmware env memory rsdp rsdt tables xp) (howned : rsdt.size = length rsdt)
    (hfiles : ∀ file pages, some (file, .ok pages) ∈ env.tableFiles → memory pages.address = none ∧ pages.address ≠ xp.address)
    (hroom : 36 + 8 * tables.length ≤ 4096) {old : Nat} (hfind : tables.find? (hasSignature fadtSignature memory) = some old)
    (hfadt : memory old = some fadt) (hrun : toFadt env memory = some (.ok s)) :
    (∃ s' r x, (dropTables env.settings s).bind (env.tableFiles.foldlM loadTable) = some s' ∧
        s'.memory s'.rsdt = some r ∧ s'.memory s'.xsdt = some x ∧ r.overrun = false ∧ x.overrun = false) ↔
      RootsFit env memory rsdt fadt tables := by
  obtain ⟨hold, fadt', hfadt', hsig⟩ := fw.old_listed hfind
  rw [hfadt, Option.some_inj] at hfadt'
  subst hfadt'
  have hsize : 32 ≤ rsdp.size := by
    by_contra hsmall
    rw [toFadt, fw.openTables_none fun h => hsmall h.2] at hrun
    cases hrun
  rw [fw.toFadt_eq hroom hsize hfind, Option.map_eq_some_iff] at hrun
  obtain ⟨s', hrun, heq⟩ := hrun
  cases heq
  obtain ⟨r, x, hrooted⟩ : ∃ r x, Rooted env memory rsdp rsdt fadt tables xp s r x := by
    cases hpages : env.fadtPages with
    | error status =>
        rw [patchFadt, opened_memory, fw.openedMemory_table hold, hfadt, Option.bind_eq_bind, Option.bind_some, hpages] at hrun
        cases hrun
        exact ⟨_, _, fw.rooted_error hroom hpages⟩
    | ok fp => exact fw.rooted_ok hroom hsize hold hfadt hsig hpages hrun
  have hlt := length_lt rsdt
  have haddresses : ∀ a ∈ loadedAddresses env.tableFiles, a ≠ s.rsdt ∧ a ≠ s.xsdt := by
    rw [hrooted.rsdtAt, hrooted.xsdtAt]
    intro a ha
    obtain ⟨file, hfile, hsome⟩ := List.mem_filterMap.mp ha
    rcases file with _ | ⟨file, _ | pages⟩
    · cases hsome
    · cases hsome
    · obtain ⟨hfresh, hx⟩ := hfiles file pages hfile
      obtain rfl := Option.some_inj.mp hsome
      refine ⟨?_, hx⟩
      intro heq
      rw [heq, fw.hrsdt] at hfresh
      cases hfresh
  have hiff := hrooted.held.changed_iff (hrooted.rsdtAt ▸ (fw.ne_of_live fw.hrsdt).1) (hrooted.xsdtAt ▸ fw.xsdtFresh.2.1)
    hrooted.rover hrooted.xover (by rw [hrooted.rsize, howned]; exact hlt) (by rw [hrooted.xsize]; decide) env.settings
    haddresses
  rw [hiff, hrooted.rsize, hrooted.xsize, hrooted.rentries, hrooted.xentries, howned, fw.lists.counted]
  exact and_congr_left fun _ => by omega

/-- The first entry is in both roots where there is a FADT. -/
theorem Firmware.first_owned (fw : Firmware env memory rsdp rsdt tables xp) (hroom : 36 + 8 * tables.length ≤ 4096)
    {old : Nat} (hrun : openTables env memory = some (.ok (s, old))) :
    ∃ r x, s.memory s.rsdt = some r ∧ s.memory s.xsdt = some x ∧
      ∀ value, (r.store 4 36 value).overrun = false ∧ (x.store 8 36 value).overrun = false := by
  have hsize : 32 ≤ rsdp.size := by
    by_contra hsmall
    rw [fw.openTables_none fun h => hsmall h.2] at hrun
    cases hrun
  rw [fw.openTables_eq hroom hsize, Option.map_eq_some_iff] at hrun
  obtain ⟨found, hfind, heq⟩ := hrun
  cases heq
  have hmem := List.mem_of_find?_eq_some hfind
  rw [← fw.lists.holds] at hmem
  have hpos := List.length_pos_of_mem (List.mem_filter.mp hmem).1
  have hcounted := fw.lists.counted
  have hwithin := fw.lists.within
  have hxsize : (newXsdt rsdt xp).size = 4096 := newXsdt_size fw.lists.counted
  refine ⟨rsdt, newXsdt rsdt xp, fw.openedMemory_rsdt, fw.openedMemory_xsdt, ?_⟩
  intro value
  constructor
  · rw [Block.overrun_store (by omega)]
    exact fw.whole _ _ fw.hrsdt
  · rw [Block.overrun_store (by rw [hxsize]; decide)]
    exact (newXsdt_spec xp fw.lists.counted fw.lists.holds).1.mpr hroom

end Room

/-! ### One table loaded into an RSDT of two entries -/

/-- The settings and the files have no part in what the firmware left. -/
theorem Firmware.reconfigure {env : Environment} {memory : Heap} {rsdp rsdt : Block} {tables : List Nat} {xp : Pages}
    (fw : Firmware env memory rsdp rsdt tables xp) (settings : Settings)
    (tableFiles : List (Option (File × Except Status Pages))) :
    Firmware { env with settings, tableFiles } memory rsdp rsdt tables xp :=
  ⟨fw.found, fw.hrsdp, fw.hrsdt, fw.apart, fw.unlisted, fw.lists, fw.live, fw.whole, fw.null, fw.pointers, fw.xsdtPages,
    fw.xsdtFresh, fw.fadtFresh, fw.dsdtFresh⟩

/-- A table of 36 bytes in pages of its own. -/
def oneFile : List (Option (File × Except Status Pages)) := [some (⟨36, fun _ => 0⟩, .ok ⟨0x30000, fun _ => 0⟩)]

def oneLoaded (dropSsdt : Bool) : Environment :=
  { twoPages with settings := { noSettings with dropSsdt }, tableFiles := oneFile }

def fadtAndSsdt : List UInt8 := [0, 48, 0, 0, 0, 64, 0, 0]

theorem oneLoaded_firmware (dropSsdt : Bool) : Firmware (oneLoaded dropSsdt) (pairMemory smallRsdp fadtAndSsdt) smallRsdp
    (pairRsdt fadtAndSsdt) [0x3000, 0x4000] ⟨0x10000, fun _ => 0⟩ :=
  (firmware_pair smallRsdp (by decide) rfl fadtFirst_lists (by decide)).reconfigure _ _

theorem oneLoaded_fresh {dropSsdt : Bool} {file : File} {pages : Pages}
    (h : some (file, .ok pages) ∈ (oneLoaded dropSsdt).tableFiles) :
    pairMemory smallRsdp fadtAndSsdt pages.address = none ∧ pages.address ≠ 0x10000 := by
  cases List.mem_singleton.mp h
  exact ⟨by decide, by decide⟩

end BareBoot.Acpi
