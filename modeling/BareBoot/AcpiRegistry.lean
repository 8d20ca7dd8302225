import BareBoot.AcpiListing

/-! Runs of drops and insertions over both roots, against a registry of the tables that are listed. -/

namespace BareBoot.Acpi

/-- A table that is listed, with the fields it is dropped by. -/
structure Registered where
  address : Nat
  signature : Nat
  oemTableId : Nat

def Registered.is (sig tableId : Nat) (t : Registered) : Bool :=
  decide (t.signature = sig ∧ (tableId = 0 ∨ tableId = t.oemTableId))

/-- Both roots list the tables of the registry, in its order, and each of these is in memory. -/
structure Represents (s : Tables) (registry : List Registered) : Prop where
  rsdt : ∃ b, s.memory s.rsdt = some b ∧ b.overrun = false ∧ Lists 4 b (registry.map Registered.address)
  xsdt : ∃ b, s.memory s.xsdt = some b ∧ b.overrun = false ∧ Lists 8 b (registry.map Registered.address)
  apart : s.rsdt ≠ s.xsdt
  null : s.memory 0 = none
  live : ∀ t ∈ registry, ∃ b, s.memory t.address = some b ∧ signature b = t.signature ∧ oemTableId b = t.oemTableId

/-! ### Calls -/

inductive Call
  | drop (sig tableId : Nat)
  | insert (table : Option (Nat → UInt8)) (size : Nat) (allocated : Except Status Pages)

/-- The call on both roots, with the addresses it follows. -/
def Call.run : Call → Tables → Option (Tables × List Nat)
  | .drop sig tableId, s => do
      let dropped ← dropTableFromRsdt sig tableId s
      let dropped' ← dropTableFromXsdt sig tableId dropped.1
      some (dropped'.1, dropped.2 ++ dropped'.2)
  | .insert table size allocated, s => (insertTable table size allocated s).map fun inserted => (inserted.1, [])

/-- What the call does to the registry. -/
def Call.register : Call → List Registered → List Registered
  | .drop sig tableId, registry => registry.filter fun t => !t.is sig tableId
  | .insert (some table) size (.ok pages), registry =>
      registry ++ [⟨pages.address, signature (tableCopy table size pages), oemTableId (tableCopy table size pages)⟩]
  | .insert _ _ _, registry => registry

/-- `AllocatePages` hands out memory of its own below the address asked for. -/
def Call.Allocates : Call → Tables → Prop
  | .insert (some _) _ (.ok pages), s =>
      s.memory pages.address = none ∧ pages.address ≠ 0 ∧ pages.address < 2 ^ 32
  | _, _ => True

/-- There is memory of the root's own for one more entry. -/
def Room (w : Nat) (b : Block) : Prop := length b + w ≤ b.size ∧ b.size < 2 ^ 32

/-- In neither root a zero entry stands in front of a table that stays, and both roots have room for the
entry an insertion adds. -/
def Call.Harmless : Call → Tables → Prop
  | .drop sig tableId, s =>
      (∀ b ∈ s.memory s.rsdt, Settled 4 sig tableId s.memory b) ∧
        ∀ b ∈ s.memory s.xsdt, Settled 8 sig tableId s.memory b
  | .insert (some _) _ (.ok _), s =>
      (∀ b ∈ s.memory s.rsdt, Room 4 b) ∧ ∀ b ∈ s.memory s.xsdt, Room 8 b
  | _, _ => True

instance (w sig tableId : Nat) (memory : Heap) (b : Block) : Decidable (Settled w sig tableId memory b) :=
  inferInstanceAs (Decidable (List.Pairwise _ _))

instance (w : Nat) (b : Block) : Decidable (Room w b) := inferInstanceAs (Decidable (_ ∧ _))

instance : (call : Call) → (s : Tables) → Decidable (call.Allocates s)
  | .insert (some _) _ (.ok _), _ => inferInstanceAs (Decidable (_ ∧ _))
  | .insert (some _) _ (.error _), _ => isTrue trivial
  | .insert none _ _, _ => isTrue trivial
  | .drop _ _, _ => isTrue trivial

instance : (call : Call) → (s : Tables) → Decidable (call.Harmless s)
  | .insert (some _) _ (.ok _), _ => inferInstanceAs (Decidable (_ ∧ _))
  | .insert (some _) _ (.error _), _ => isTrue trivial
  | .insert none _ _, _ => isTrue trivial
  | .drop _ _, _ => inferInstanceAs (Decidable (_ ∧ _))

section Steps

variable {s : Tables} {registry : List Registered} {sig tableId : Nat}

theorem Represents.named_eq (h : Represents s registry) {t : Registered} (ht : t ∈ registry) :
    named sig tableId s.memory t.address = t.is sig tableId := by
  obtain ⟨b, hb, hsig, hid⟩ := h.live t ht
  simp only [named, hb, Registered.is, hsig, hid]

theorem Represents.filter_named (h : Represents s registry) :
    (registry.map Registered.address).filter (fun address => !named sig tableId s.memory address) =
      (registry.filter fun t => !t.is sig tableId).map Registered.address := by
  rw [List.filter_map]
  congr 1
  apply List.filter_congr
  intro t ht
  rw [Function.comp_apply, h.named_eq ht]

/-- Each address a root holds is that of a table. -/
theorem Represents.live_entries (h : Represents s registry) {w : Nat} {b : Block}
    (hlists : Lists w b (registry.map Registered.address)) :
    ∀ address ∈ entries w b, address ≠ 0 → ∃ table, s.memory address = some table := by
  intro address hmem hne
  have hlisted : address ∈ (entries w b).filter listed := List.mem_filter.mpr ⟨hmem, by simp [listed, hne]⟩
  rw [hlists.holds] at hlisted
  obtain ⟨t, ht, rfl⟩ := List.mem_map.mp hlisted
  obtain ⟨table, htable, -⟩ := h.live t ht
  exact ⟨table, htable⟩

/-- A root changed within its frame still has the fields of every table. -/
theorem live_set {memory : Heap} {root : Nat} {b c : Block} (hroot : memory root = some b) (hframe : Frame b c)
    {t : Registered}
    (ht : ∃ table, memory t.address = some table ∧ signature table = t.signature ∧ oemTableId table = t.oemTableId) :
    ∃ table, (memory.set root c) t.address = some table ∧ signature table = t.signature ∧
      oemTableId table = t.oemTableId := by
  by_cases haddress : t.address = root
  · obtain ⟨table, htable, hsig, hid⟩ := ht
    rw [haddress, hroot, Option.some.injEq] at htable
    subst htable
    exact ⟨c, by rw [haddress, Heap.set_same], (signature_of_agrees hframe.naming).trans hsig,
      (oemTableId_of_agrees hframe.naming).trans hid⟩
  · rwa [Heap.set_other haddress]

/-- Both roots replaced within their frames represent what they list now. -/
theorem represents_set {rsdt xsdt : Nat} {memory : Heap} {b b' x x' : Block} (happart : rsdt ≠ xsdt)
    (hnull : memory 0 = none) (hb : memory rsdt = some b) (hx : memory xsdt = some x)
    (hbframe : Frame b b') (hxframe : Frame x x') (hbover : b.overrun = false) (hxover : x.overrun = false)
    (hblists : Lists 4 b' (registry.map Registered.address)) (hxlists : Lists 8 x' (registry.map Registered.address))
    (hlive : ∀ t ∈ registry, ∃ table, memory t.address = some table ∧ signature table = t.signature ∧
      oemTableId table = t.oemTableId) :
    Represents ⟨rsdt, xsdt, (memory.set rsdt b').set xsdt x'⟩ registry := by
  have hne : ∀ {root c}, memory root = some c → 0 ≠ root := by
    rintro root c hroot rfl
    rw [hnull] at hroot
    cases hroot
  have hx' : (memory.set rsdt b') xsdt = some x := by rwa [Heap.set_other happart.symm]
  constructor
  · exact ⟨b', (Heap.set_other happart).trans Heap.set_same, hbframe.overrun.trans hbover, hblists⟩
  · exact ⟨x', Heap.set_same, hxframe.overrun.trans hxover, hxlists⟩
  · exact happart
  · change ((memory.set rsdt b').set xsdt x') 0 = none
    rw [Heap.set_other (hne hx), Heap.set_other (hne hb), hnull]
  · intro t ht
    exact live_set hx' hxframe (live_set hb hbframe (hlive t ht))

theorem dropRoot_spec (sig tableId : Nat) {w : Nat} (hw : 0 < w) {b : Block} {memory : Heap} {root : Nat} {addresses : List Nat}
    (hroot : memory root = some b) (hlists : Lists w b addresses)
    (hlive : ∀ address ∈ entries w b, address ≠ 0 → ∃ table, memory address = some table) :
    ∃ c, Frame b c ∧
      (Lists w c (addresses.filter fun address => !named sig tableId memory address) ↔ Settled w sig tableId memory b) ∧
      dropTable w root sig tableId memory = some (memory.set root c, addresses) := by
  have hold := entries_of_length hw hlists.counted
  obtain ⟨c, hdropped, hrun⟩ := dropTable_spec sig tableId hw hroot
    (hlists.counted ▸ hlists.within) hlists.counted (by rwa [← hold])
  refine ⟨c, hdropped.frame, lists_dropped_iff hw hlists hdropped, ?_⟩
  rw [hrun, ← hold, hlists.holds]

theorem Represents.drop (h : Represents s registry) (hharmless : (Call.drop sig tableId).Harmless s) :
    ∃ s' followed, (Call.drop sig tableId).run s = some (s', followed) ∧
      (∀ address ∈ followed, address ∈ registry.map Registered.address) ∧
      Represents s' ((Call.drop sig tableId).register registry) := by
  obtain ⟨b, hb, hbover, hblists⟩ := h.rsdt
  obtain ⟨x, hx, hxover, hxlists⟩ := h.xsdt
  obtain ⟨b', hbframe, hbdrop, hbrun⟩ := dropRoot_spec sig tableId (by decide) hb hblists
    (h.live_entries hblists)
  have hx' : (s.memory.set s.rsdt b') s.xsdt = some x := by rwa [Heap.set_other h.apart.symm]
  obtain ⟨x', hxframe, hxdrop, hxrun⟩ := dropRoot_spec sig tableId (by decide) hx' hxlists
    (fun address hmem hne => isSome_set (h.live_entries hxlists address hmem hne))
  have hxsettled : Settled 8 sig tableId (s.memory.set s.rsdt b') x := by
    rw [Settled, stays_set _ _ hb hbframe]
    exact hharmless.2 x hx
  rw [named_set hb hbframe] at hxdrop
  refine ⟨⟨s.rsdt, s.xsdt, (s.memory.set s.rsdt b').set s.xsdt x'⟩,
    registry.map Registered.address ++ registry.map Registered.address, ?_, ?_, ?_⟩
  · simp only [Call.run, dropTableFromRsdt, dropTableFromXsdt, hbrun, hxrun, Option.bind_eq_bind, Option.bind_some]
  · intro address hmem
    exact (List.mem_append.mp hmem).elim id id
  · apply represents_set h.apart h.null hb hx hbframe hxframe hbover hxover
    · rw [Call.register, ← h.filter_named]
      exact hbdrop.mpr (hharmless.1 b hb)
    · rw [Call.register, ← h.filter_named]
      exact hxdrop.mpr hxsettled
    · intro t ht
      exact h.live t (List.mem_of_mem_filter ht)

theorem Represents.insert (h : Represents s registry) {table : Option (Nat → UInt8)} {size : Nat}
    {allocated : Except Status Pages} (hallocates : (Call.insert table size allocated).Allocates s)
    (hharmless : (Call.insert table size allocated).Harmless s) :
    ∃ s', (Call.insert table size allocated).run s = some (s', []) ∧
      Represents s' ((Call.insert table size allocated).register registry) := by
  cases table with
  | none => exact ⟨s, rfl, h⟩
  | some table =>
      cases allocated with
      | error status => exact ⟨s, rfl, h⟩
      | ok pages =>
          obtain ⟨hnew, hpages, hbelow⟩ := hallocates
          obtain ⟨b, hb, hbover, hblists⟩ := h.rsdt
          obtain ⟨x, hx, hxover, hxlists⟩ := h.xsdt
          have hfresh : ∀ {root b}, s.memory root = some b → root ≠ pages.address := by
            rintro root b hroot rfl
            rw [hnew] at hroot
            cases hroot
          have hlive : ∀ {root b}, s.memory root = some b → root ≠ 0 := by
            rintro root b hroot rfl
            rw [h.null] at hroot
            cases hroot
          have hb' : s.memory.set pages.address (tableCopy table size pages) s.rsdt = some b := by
            rwa [Heap.set_other (hfresh hb)]
          have hx' : s.memory.set pages.address (tableCopy table size pages) s.xsdt = some x := by
            rwa [Heap.set_other (hfresh hx)]
          obtain ⟨hbroom, hbsize⟩ := hharmless.1 b hb
          obtain ⟨hxroom, hxsize⟩ := hharmless.2 x hx
          obtain ⟨b', hbframe, hbappend, hbrun⟩ := appendEntry_spec (by decide) (hlive hb) hb' hblists hbroom hbsize
            hbelow hpages
          obtain ⟨x', hxframe, hxappend, hxrun⟩ := appendEntry_spec (by decide) (hlive hx)
            ((Heap.set_other h.apart.symm).trans hx') hxlists hxroom hxsize (hbelow.trans (by decide)) hpages
          have hmap : ∀ t : Registered, (registry ++ [t]).map Registered.address =
              registry.map Registered.address ++ [t.address] := by
            intro t
            rw [List.map_append, List.map_singleton]
          refine ⟨⟨s.rsdt, s.xsdt, ((s.memory.set pages.address (tableCopy table size pages)).set s.rsdt b').set
            s.xsdt x'⟩, ?_, ?_⟩
          · simp only [Call.run, insertTable, Option.bind_eq_bind]
            rw [hbrun, Option.bind_some, hxrun]
            rfl
          · apply represents_set h.apart ((Heap.set_other hpages.symm).trans h.null) hb' hx' hbframe hxframe hbover hxover
            · rw [Call.register, hmap]
              exact hbappend
            · rw [Call.register, hmap]
              exact hxappend
            · intro t ht
              rcases List.mem_append.mp ht with hold | hlast
              · obtain ⟨c, hc, hfields⟩ := h.live t hold
                exact ⟨c, by rw [Heap.set_other (hfresh hc), hc], hfields⟩
              · rw [List.mem_singleton] at hlast
                subst hlast
                exact ⟨_, Heap.set_same, rfl, rfl⟩

end Steps

/-! ### Runs -/

/-- Every call of the run is served as documented and harmless where it is made. -/
def Meets : List Call → Tables → Prop
  | [], _ => True
  | call :: calls, s => call.Allocates s ∧ call.Harmless s ∧ ∀ after ∈ call.run s, Meets calls after.1

instance decidableMeets : (calls : List Call) → (s : Tables) → Decidable (Meets calls s)
  | [], _ => isTrue trivial
  | call :: calls, s =>
      have : ∀ after : Tables × List Nat, Decidable (Meets calls after.1) := fun after => decidableMeets calls after.1
      inferInstanceAs (Decidable (_ ∧ _ ∧ ∀ after ∈ call.run s, Meets calls after.1))

/-- In every state of the run both roots list the registry, and each call follows addresses of it only. -/
def Consistent : List Call → Tables → List Registered → Prop
  | [], s, registry => Represents s registry
  | call :: calls, s, registry =>
      Represents s registry ∧ ∃ after ∈ call.run s,
        (∀ address ∈ after.2, address ∈ registry.map Registered.address) ∧
          Consistent calls after.1 (call.register registry)

theorem roots_consistent {calls : List Call} {s : Tables} {registry : List Registered}
    (h : Represents s registry) (hmeets : Meets calls s) : Consistent calls s registry := by
  induction calls generalizing s registry with
  | nil => exact h
  | cons call calls ih =>
      obtain ⟨hallocates, hharmless, hrest⟩ := hmeets
      refine ⟨h, ?_⟩
      cases call with
      | drop sig tableId =>
          obtain ⟨s', followed, hrun, hfollowed, h'⟩ := h.drop hharmless
          exact ⟨(s', followed), hrun, hfollowed, ih h' (hrest _ hrun)⟩
      | insert table size allocated =>
          obtain ⟨s', hrun, h'⟩ := h.insert hallocates hharmless
          exact ⟨(s', []), hrun, fun _ hmem => absurd hmem List.not_mem_nil, ih h' (hrest _ hrun)⟩

/-! ### A run, and a zero entry -/

/-- A table of the bytes given, alone in its memory. -/
def tableOf (bytes : List UInt8) : Block := Block.fresh bytes.length fun a => bytes.getD a 0

/-- The header of a table: signature and length, the other fields zero. -/
def headerOf (sig : List UInt8) (size : UInt8) : List UInt8 :=
  sig ++ [size, 0, 0, 0] ++ List.replicate 28 0

/-- An RSDT and an XSDT over an SSDT and a DMAR, with room for one more entry. -/
def twoTables : Tables where
  rsdt := 0x1000
  xsdt := 0x2000
  memory := fun a =>
    if a = 0x1000 then
      some (tableOf (headerOf [82, 83, 68, 84] 44 ++ [0, 48, 0, 0, 0, 64, 0, 0] ++ List.replicate 4 0))
    else if a = 0x2000 then
      some (tableOf (headerOf [88, 83, 68, 84] 52 ++
        [0, 48, 0, 0, 0, 0, 0, 0, 0, 64, 0, 0, 0, 0, 0, 0] ++ List.replicate 8 0))
    else if a = 0x3000 then some (tableOf (headerOf [83, 83, 68, 84] 36))
    else if a = 0x4000 then some (tableOf (headerOf [68, 77, 65, 82] 36))
    else none

/-- The same, but the RSDT has a zero entry in front. -/
def zeroInFront : Tables :=
  { twoTables with
    memory := twoTables.memory.set 0x1000
      (tableOf (headerOf [82, 83, 68, 84] 48 ++ [0, 0, 0, 0, 0, 48, 0, 0, 0, 64, 0, 0])) }

def twoRegistered : List Registered := [⟨0x3000, 0x54445353, 0⟩, ⟨0x4000, 0x52414d44, 0⟩]

def smallTable : Nat → UInt8 := fun a => (headerOf [72, 80, 69, 84] 36).getD a 0

/-- The DMAR is dropped, and a table is inserted. -/
def smallRun : List Call := [.drop 0x52414d44 0, .insert (some smallTable) 36 (.ok ⟨0x5000, fun _ => 0⟩)]

theorem represents_twoTables : Represents twoTables twoRegistered where
  rsdt := ⟨_, rfl, rfl, by decide, by decide, by decide⟩
  xsdt := ⟨_, rfl, rfl, by decide, by decide, by decide⟩
  apart := by decide
  null := rfl
  live := by
    intro t ht
    rcases List.mem_pair.mp ht with rfl | rfl
    · exact ⟨_, rfl, by decide, by decide⟩
    · exact ⟨_, rfl, by decide, by decide⟩

theorem smallRun_consistent : Consistent smallRun twoTables twoRegistered :=
  roots_consistent represents_twoTables (by decide)

/-- With a zero entry in front of it the SSDT is lost when the DMAR is dropped. -/
theorem zeroInFront_lost :
    Represents zeroInFront twoRegistered ∧ ¬ Consistent [.drop 0x52414d44 0] zeroInFront twoRegistered := by
  constructor
  · constructor
    · exact ⟨_, rfl, rfl, by decide, by decide, by decide⟩
    · exact ⟨_, rfl, rfl, by decide, by decide, by decide⟩
    · decide
    · rfl
    · intro t ht
      rcases List.mem_pair.mp ht with rfl | rfl
      · exact ⟨_, rfl, by decide, by decide⟩
      · exact ⟨_, rfl, by decide, by decide⟩
  · rintro ⟨-, after, hrun, -, h⟩
    have hlost : ((Call.drop 0x52414d44 0).run zeroInFront).all (fun after =>
        (after.1.memory after.1.rsdt).all fun b => (entries 4 b).filter listed == []) = true := by decide
    obtain ⟨b, hb, -, hlists⟩ := h.rsdt
    rw [Option.mem_def.mp hrun, Option.all_some, hb, Option.all_some, hlists.holds] at hlost
    revert hlost
    decide

end BareBoot.Acpi
