import BareBoot.AcpiListing
import BareBoot.PatchAcpi

/-! The XSDT that `PatchACPI` builds lists the tables of the RSDT without its zero entries, and the scan of
it finds the first table with the signature. -/

namespace BareBoot.Acpi

section Copy

variable {rsdt xsdt : Block}

/-- An entry of the RSDT copied into the XSDT. -/
def copyEntry (rsdt : Block) (pEntryR pEntryX : Nat) (xsdt : Block) : Block :=
  (xsdt.store 8 pEntryX 0).write pEntryX 4 fun i => rsdt.byte (pEntryR + i)

theorem entry_copyEntry (i j : Nat) :
    entry 8 (copyEntry rsdt (36 + 4 * i) (36 + 8 * j) xsdt) = Function.update (entry 8 xsdt) j (entry 4 rsdt i) := by
  funext k
  by_cases hk : k = j
  · subst hk
    have hlow : wordAt (copyEntry rsdt (36 + 4 * i) (36 + 8 * k) xsdt).byte 4 (36 + 8 * k) =
        rsdt.word 4 (36 + 4 * i) := wordAt_moved fun m hm => Block.byte_write_inside hm
    have hhigh : wordAt (copyEntry rsdt (36 + 4 * i) (36 + 8 * k) xsdt).byte 4 (36 + 8 * k + 4) = 0 := by
      have hzero : wordAt (copyEntry rsdt (36 + 4 * i) (36 + 8 * k) xsdt).byte 4 (36 + 8 * k + 4) = 0 % 256 ^ 4 := by
        apply wordAt_wordByte
        intro m hm
        rw [copyEntry, Block.byte_write_outside (by omega), Block.store,
          show 36 + 8 * k + 4 + m = 36 + 8 * k + (4 + m) by omega, Block.byte_write_inside (by omega)]
        simp [wordByte]
      exact hzero
    rw [Function.update_self, entry, Block.word, show (8 : Nat) = 4 + 4 from rfl, wordAt_add, hlow]
    rw [hhigh, Nat.mul_zero, Nat.add_zero]
    rfl
  · rw [Function.update_of_ne hk]
    have hbounds : 36 + 8 * k + 8 ≤ 36 + 8 * j ∨ 36 + 8 * j + 8 ≤ 36 + 8 * k := by omega
    apply wordAt_congr
    intro m hm
    rw [copyEntry, Block.byte_write_outside (by omega), Block.store, Block.byte_write_outside (by omega)]

theorem length_copyEntry {pEntryR pEntryX : Nat} (h : 8 ≤ pEntryX) :
    length (copyEntry rsdt pEntryR pEntryX xsdt) = length xsdt := by
  apply wordAt_congr
  intro m hm
  rw [copyEntry, Block.byte_write_outside (by omega), Block.store, Block.byte_write_outside (by omega)]

theorem length_shorten_mod (xsdt : Block) {z : Nat} (h : z ≤ 2 ^ 32) :
    (length (shorten z xsdt) + z) % 2 ^ 32 = length xsdt := by
  have hlt := length_lt xsdt
  rw [shorten, length_setLength (Nat.mod_lt _ (by decide))]
  omega

/-- What the loop has made of `xsdt` when it has copied the entries given behind the first `j`. -/
structure Copied (xsdt built : Block) (count j : Nat) (copied : List Nat) : Prop where
  entries : segment (entry 8 built) 0 (j + copied.length) = segment (entry 8 xsdt) 0 j ++ copied
  length : (length built + 8 * (count - copied.length)) % 2 ^ 32 = length xsdt
  size : built.size = xsdt.size
  within : built.overrun = false ↔
    xsdt.overrun = false ∧ (0 < copied.length → 36 + 8 * (j + copied.length) ≤ xsdt.size)

theorem copyEntries_zero {count i : Nat} (j : Nat) (h : entry 4 rsdt i = 0) :
    copyEntries rsdt (count + 1) (36 + 4 * i) (36 + 8 * j) xsdt =
      copyEntries rsdt count (36 + 4 * (i + 1)) (36 + 8 * j) (shorten 8 xsdt) := by
  rw [copyEntries, show 36 + 4 * i + 4 = 36 + 4 * (i + 1) by ring]
  exact if_neg (not_not.mpr h)

theorem copyEntries_listed {count i : Nat} (j : Nat) (h : entry 4 rsdt i ≠ 0) :
    copyEntries rsdt (count + 1) (36 + 4 * i) (36 + 8 * j) xsdt =
      copyEntries rsdt count (36 + 4 * (i + 1)) (36 + 8 * (j + 1)) (copyEntry rsdt (36 + 4 * i) (36 + 8 * j) xsdt) := by
  rw [copyEntries, show 36 + 4 * i + 4 = 36 + 4 * (i + 1) by ring, show 36 + 8 * j + 8 = 36 + 8 * (j + 1) by ring]
  exact if_pos h

/-- The loop that builds the XSDT copies the entries that are not zero. -/
theorem copyEntries_spec (rsdt : Block) (count i j : Nat) (xsdt : Block) (hsize : 8 ≤ xsdt.size) :
    Copied xsdt (copyEntries rsdt count (36 + 4 * i) (36 + 8 * j) xsdt) count j
      ((segment (entry 4 rsdt) i count).filter listed) := by
  induction count generalizing i j xsdt with
  | zero =>
      have hlt := length_lt xsdt
      constructor
      · simp [copyEntries]
      · simpa [copyEntries] using Nat.mod_eq_of_lt hlt
      · rfl
      · simp [copyEntries]
  | succ count ih =>
      have hcopied : ((segment (entry 4 rsdt) (i + 1) count).filter listed).length ≤ count :=
        (List.length_filter_le _ _).trans_eq (length_segment _ _ _)
      rw [segment_succ]
      by_cases hzero : entry 4 rsdt i = 0
      · have hstep := ih (i + 1) j (shorten 8 xsdt) hsize
        have hsame : entry 8 (shorten 8 xsdt) = entry 8 xsdt := entry_setLength _
        have hshort := length_shorten_mod xsdt (z := 8) (by decide)
        have hkept : (shorten 8 xsdt).overrun = false ↔ xsdt.overrun = false := by
          rw [shorten, setLength, Block.overrun_store_iff (by decide)]
          exact and_iff_left hsize
        rw [copyEntries_zero j hzero, List.filter_cons_of_neg (by simp [listed, hzero])]
        constructor
        · rw [hstep.entries, hsame]
        · have := hstep.length
          omega
        · exact hstep.size
        · exact hstep.within.trans (and_congr_left fun _ => hkept)
      · have hstep := ih (i + 1) (j + 1) (copyEntry rsdt (36 + 4 * i) (36 + 8 * j) xsdt) hsize
        have hkept : (copyEntry rsdt (36 + 4 * i) (36 + 8 * j) xsdt).overrun = false ↔
            xsdt.overrun = false ∧ 36 + 8 * j + 8 ≤ xsdt.size := by
          rw [copyEntry, Block.overrun_write_iff, Block.overrun_store_iff (by decide), Block.size_store]
          exact ⟨fun h => h.1, fun h => ⟨h, fun _ => by omega⟩⟩
        have hfront : segment (Function.update (entry 8 xsdt) j (entry 4 rsdt i)) 0 j = segment (entry 8 xsdt) 0 j := by
          apply segment_congr
          intro k hk
          exact Function.update_of_ne (by omega) _ _
        rw [copyEntries_listed j hzero, List.filter_cons_of_pos (by simp [listed, hzero])]
        constructor
        · have hentries := hstep.entries
          rw [entry_copyEntry, segment_succ_last, hfront, Nat.zero_add, Function.update_self] at hentries
          rw [List.length_cons, ← Nat.add_assoc, Nat.add_right_comm j, hentries, List.append_assoc,
            List.singleton_append]
        · have hlength := hstep.length
          rw [length_copyEntry (by omega)] at hlength
          rw [List.length_cons]
          omega
        · exact hstep.size
        · have hwithin := hstep.within
          rw [hkept] at hwithin
          rw [hwithin, List.length_cons]
          have hsize' : (copyEntry rsdt (36 + 4 * i) (36 + 8 * j) xsdt).size = xsdt.size := rfl
          rw [hsize']
          constructor
          · rintro ⟨⟨hx, hfirst⟩, hrest⟩
            exact ⟨hx, fun _ => by omega⟩
          · rintro ⟨hx, hall⟩
            exact ⟨⟨hx, by omega⟩, fun _ => by omega⟩

end Copy

section New

variable {rsdt : Block} {pages : Pages}

theorem xsdtHeader_spec (pages : Pages) {n : Nat} (hlen : length rsdt = 36 + 4 * n) :
    length (xsdtHeader rsdt pages) = (n * 8 + 36) % 2 ^ 32 ∧ (xsdtHeader rsdt pages).size = 4096 ∧
      (xsdtHeader rsdt pages).overrun = false := by
  have hcount : entryCount 4 rsdt = n := entryCount_of_length (by decide) hlen
  refine ⟨?_, rfl, rfl⟩
  have hkept : length (xsdtHeader rsdt pages) =
      length (((Block.fresh 4096 pages.content).store 4 0 0x54445358).store 4 4 (entryCount 4 rsdt * 8 + 36)) := by
    unfold length xsdtHeader
    rw [Block.word_store_outside (Or.inl (by decide)), Block.word_store_outside (Or.inl (by decide)),
      Block.word_store_outside (Or.inl (by decide)), Block.word_store_outside (Or.inl (by decide)),
      Block.word_write_outside (Or.inl (by decide)), Block.word_store_outside (Or.inl (by decide))]
  rw [hkept, hcount]
  exact Block.word_store_self

theorem newXsdt_size {n : Nat} (hlen : length rsdt = 36 + 4 * n) : (newXsdt rsdt pages).size = 4096 := by
  obtain ⟨-, hsize, -⟩ := xsdtHeader_spec pages hlen
  rw [newXsdt, entryCount_of_length (by decide) hlen]
  exact (copyEntries_spec rsdt n 0 0 (xsdtHeader rsdt pages) (by rw [hsize]; decide)).size.trans hsize

/-- The new XSDT fits its page exactly when it is built without leaving it, and lists the tables of the RSDT. -/
theorem newXsdt_spec (pages : Pages) {n : Nat} (hlen : length rsdt = 36 + 4 * n) {tables : List Nat}
    (htables : (entries 4 rsdt).filter listed = tables) :
    ((newXsdt rsdt pages).overrun = false ↔ 36 + 8 * tables.length ≤ 4096) ∧
      (36 + 8 * tables.length ≤ 4096 →
        Lists 8 (newXsdt rsdt pages) tables ∧ entries 8 (newXsdt rsdt pages) = tables) := by
  obtain ⟨hheader, hsize, hover⟩ := xsdtHeader_spec pages hlen
  have hentries : segment (entry 4 rsdt) 0 n = entries 4 rsdt := (entries_of_length (by decide) hlen).symm
  have hbuilt := copyEntries_spec rsdt n 0 0 (xsdtHeader rsdt pages) (by rw [hsize]; decide)
  have hnew : copyEntries rsdt n (36 + 4 * 0) (36 + 8 * 0) (xsdtHeader rsdt pages) = newXsdt rsdt pages := by
    rw [newXsdt, entryCount_of_length (by decide) hlen]
  rw [hnew, hentries, htables] at hbuilt
  have hcount : tables.length ≤ n := by
    rw [← htables, ← hentries]
    exact (List.length_filter_le _ _).trans_eq (length_segment _ _ _)
  constructor
  · rw [hbuilt.within, hover, hsize, Nat.zero_add]
    constructor
    · rintro ⟨-, h⟩
      by_cases hpos : 0 < tables.length
      · exact h hpos
      · omega
    · exact fun h => ⟨rfl, fun _ => h⟩
  · intro hroom
    have hlt := length_lt (newXsdt rsdt pages)
    have hlength : length (newXsdt rsdt pages) = 36 + 8 * tables.length := by
      have := hbuilt.length
      rw [hheader] at this
      omega
    have hlist : entries 8 (newXsdt rsdt pages) = tables := by
      rw [entries_of_length (by decide) hlength, ← Nat.zero_add tables.length, hbuilt.entries]
      rfl
    refine ⟨?_, hlist⟩
    constructor
    · rw [hlength, hlist]
    · rw [hlength, hbuilt.size, hsize]
      exact hroom
    · rw [hlist, ← htables, List.filter_filter]
      simp only [Bool.and_self]

end New

/-! ### The scan -/

/-- The address is that of a table with the signature. -/
def hasSignature (sig : Nat) (memory : Heap) (address : Nat) : Bool :=
  (memory address).any fun table => decide (signature table = sig)

theorem scanEntries_spec (sig : Nat) (xsdt : Block) (memory : Heap) (count j : Nat)
    (hlive : ∀ address ∈ segment (entry 8 xsdt) j count, ∃ table, memory address = some table) :
    ∃ found, scanEntries sig xsdt memory count (36 + 8 * j) = some found ∧
      found.map (xsdt.word 8) = (segment (entry 8 xsdt) j count).find? (hasSignature sig memory) := by
  induction count generalizing j with
  | zero => exact ⟨none, rfl, rfl⟩
  | succ count ih =>
      rw [segment_succ] at hlive ⊢
      rw [List.forall_mem_cons] at hlive
      obtain ⟨⟨table, htable⟩, hrest⟩ := hlive
      have hword : memory (xsdt.word 8 (36 + 8 * j)) = some table := htable
      rw [scanEntries, hword, Option.bind_eq_bind, Option.bind_some]
      by_cases hsig : signature table = sig
      · rw [if_pos hsig, List.find?_cons_of_pos (by simp [hasSignature, htable, hsig])]
        exact ⟨some (36 + 8 * j), rfl, rfl⟩
      · rw [if_neg hsig, List.find?_cons_of_neg (by simp [hasSignature, htable, hsig]),
          show 36 + 8 * j + 8 = 36 + 8 * (j + 1) by ring]
        exact ih (j + 1) hrest

end BareBoot.Acpi
