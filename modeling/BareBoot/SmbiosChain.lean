import BareBoot.SmbiosString

/-! The walk over an SMBIOS table: the structures stand one behind the other, and a structure of type 127 ends them. -/

namespace BareBoot.Smbios

open Plist Kext

/-- A structure: the formatted area begins with the header, which holds the type and the length of the area. -/
structure Structure where
  formatted : Bytes
  strings : List Bytes
  header : 4 ≤ formatted.length
  counted : (formatted.getD 1 0).toNat = formatted.length
  texts : ∀ s ∈ strings, IsText s
  size : formatted.length + (stringSet strings).length < 2 ^ 16

namespace Structure

def type (s : Structure) : UInt8 := s.formatted.getD 0 0

def bytes (s : Structure) : Bytes := s.formatted ++ stringSet s.strings

end Structure

/-- The structures of a chain, each with the address it stands at. -/
def located : Nat → List Structure → List (Nat × Structure)
  | _, [] => []
  | a, s :: chain => (a, s) :: located (a + s.bytes.length) chain

/-- The structures of a type, in the order of the chain. -/
def ofType (type : UInt8) (a : Nat) (chain : List Structure) : List (Nat × Structure) :=
  (located a chain).filter fun p => p.2.type == type

/-- A table: a chain of structures of other types than 127, and one of this type behind it. -/
structure IsTable (memory : Memory) (a : Nat) (chain : List Structure) (last : Structure) : Prop where
  inside : ∀ s ∈ chain, s.type ≠ typeEndOfTable
  ends : last.type = typeEndOfTable
  stands : holds memory a ((chain ++ [last]).flatMap Structure.bytes) = true

variable {memory : Memory} {a : Nat} {s last : Structure} {chain : List Structure} {lType : UInt8}

/-! ### One structure -/

theorem Structure.type_at (h : holds memory a s.bytes = true) : memory a = s.type := by
  have hheader := s.header
  rw [Structure.bytes, holds_append, Bool.and_eq_true] at h
  exact holds_getD h.1 (i := 0) (by omega)

theorem Structure.length_at (h : holds memory a s.bytes = true) : (memory (a + 1)).toNat = s.formatted.length := by
  have hheader := s.header
  rw [Structure.bytes, holds_append, Bool.and_eq_true] at h
  rw [holds_getD h.1 (by omega), s.counted]

theorem Structure.length_bytes (s : Structure) : s.bytes.length = s.formatted.length + (stringSet s.strings).length :=
  List.length_append

/-- The formatted area and the strings with the two zeros. -/
theorem Structure.smbiosTableLength_at (h : holds memory a s.bytes = true) :
    smbiosTableLength memory a = some s.bytes.length := by
  have hlength := Structure.length_at h
  have hstrings : holds memory (firstString memory a) (stringSet s.strings) = true := by
    rw [Structure.bytes, holds_append, Bool.and_eq_true] at h
    rw [firstString, hlength]
    exact h.2
  rw [smbiosTableLength_of_stands s.texts (by rw [hlength]; exact s.size) hstrings, hlength, s.length_bytes]

/-! ### The walk -/

theorem IsTable.tail (h : IsTable memory a (s :: chain) last) :
    holds memory a s.bytes = true ∧ IsTable memory (a + s.bytes.length) chain last := by
  have hstands := h.stands
  rw [List.cons_append, List.flatMap_cons, holds_append, Bool.and_eq_true] at hstands
  exact ⟨hstands.1, fun s hs => h.inside s (List.mem_cons_of_mem _ hs), h.ends, hstands.2⟩

theorem IsTable.last_at (h : IsTable memory a [] last) : holds memory a last.bytes = true := by
  have hstands := h.stands
  rwa [List.nil_append, List.flatMap_singleton] at hstands

/-- Every structure of a table stands at the address it is located at. -/
theorem IsTable.located (h : IsTable memory a chain last) :
    ∀ p ∈ located a (chain ++ [last]), holds memory p.1 p.2.bytes = true := by
  induction chain generalizing a with
  | nil =>
      intro p hp
      obtain rfl := List.mem_singleton.mp hp
      exact h.last_at
  | cons s chain ih =>
      intro p hp
      rcases List.mem_cons.mp hp with rfl | hp
      · exact h.tail.1
      · exact ih h.tail.2 p hp

theorem ofType_cons_of_eq (h : s.type = lType) :
    ofType lType a (s :: chain) = (a, s) :: ofType lType (a + s.bytes.length) chain :=
  List.filter_cons_of_pos (beq_iff_eq.mpr h)

theorem ofType_cons_of_ne (h : s.type ≠ lType) : ofType lType a (s :: chain) = ofType lType (a + s.bytes.length) chain :=
  List.filter_cons_of_neg fun hs => h (beq_iff_eq.mp hs)

theorem map_located (a : Nat) (chain : List Structure) : (located a chain).map Prod.snd = chain := by
  induction chain generalizing a with
  | nil => rfl
  | cons s chain ih => rw [located, List.map_cons, ih]

theorem map_ofType (lType : UInt8) (a : Nat) (chain : List Structure) :
    (ofType lType a chain).map Prod.snd = chain.filter fun s => s.type == lType := by
  calc (ofType lType a chain).map Prod.snd
      = ((located a chain).map Prod.snd).filter fun s => s.type == lType := by rw [List.filter_map]; rfl
    _ = chain.filter fun s => s.type == lType := by rw [map_located]

theorem located_append (a : Nat) (chain chain' : List Structure) :
    located a (chain ++ chain') = located a chain ++ located (a + (chain.flatMap Structure.bytes).length) chain' := by
  induction chain generalizing a with
  | nil => rfl
  | cons s chain ih =>
      rw [List.cons_append, located, ih, List.flatMap_cons, List.length_append, Nat.add_assoc]
      rfl

/-- No structure of a table is located before the table. -/
theorem le_of_mem_located {p : Nat × Structure} (h : p ∈ located a chain) : a ≤ p.1 := by
  induction chain generalizing a with
  | nil => cases h
  | cons s chain ih =>
      rcases List.mem_cons.mp h with rfl | h
      · exact le_rfl
      · exact (Nat.le_add_right _ _).trans (ih h)

/-- One round at a structure that is not the one looked for. -/
theorem tableFromTypeFrom_step {lIndex count rounds : Nat} (h : holds memory a s.bytes = true)
    (hinside : s.type ≠ typeEndOfTable) (hother : count ≠ lIndex ∨ s.type ≠ lType) :
    tableFromTypeFrom memory lType lIndex (rounds + 1) count a =
      tableFromTypeFrom memory lType lIndex rounds (if s.type = lType then count + 1 else count) (a + s.bytes.length) := by
  rw [tableFromTypeFrom, Structure.type_at h, if_pos hother, if_neg hinside, Structure.smbiosTableLength_at h]
  rfl

/-- With `n` structures of the type to go, the walk ends at the last of them, or with `NULL` at the end of the table. -/
theorem tableFromTypeFrom_eq (htype : lType ≠ typeEndOfTable) (h : IsTable memory a chain last) (n count : Nat)
    {rounds : Nat} (hrounds : chain.length < rounds) :
    tableFromTypeFrom memory lType (count + n) rounds count a = some (((ofType lType a chain)[n]?.map Prod.fst).getD 0) := by
  induction chain generalizing a n count rounds with
  | nil =>
      obtain ⟨rounds, rfl⟩ := Nat.exists_eq_add_of_lt hrounds
      have hend : memory a = typeEndOfTable := (Structure.type_at h.last_at).trans h.ends
      rw [List.length_nil, Nat.zero_add, tableFromTypeFrom, hend, if_pos (Or.inr (Ne.symm htype)), if_pos rfl]
      rfl
  | cons s chain ih =>
      obtain ⟨hs, htail⟩ := h.tail
      have hinside := h.inside s List.mem_cons_self
      obtain ⟨rounds, rfl⟩ := Nat.exists_eq_succ_of_ne_zero (Nat.ne_of_gt (Nat.zero_lt_of_lt hrounds))
      have hrest : chain.length < rounds := Nat.lt_of_succ_lt_succ hrounds
      by_cases hmatch : s.type = lType
      · rw [ofType_cons_of_eq hmatch]
        cases n with
        | zero =>
            have hhere : ¬(count ≠ count + 0 ∨ memory a ≠ lType) := by
              rw [Structure.type_at hs, hmatch]
              exact fun h => h.elim (fun h => h rfl) fun h => h rfl
            rw [tableFromTypeFrom, if_neg hhere]
            rfl
        | succ n =>
            rw [tableFromTypeFrom_step hs hinside (Or.inl (by omega)), if_pos hmatch, List.getElem?_cons_succ,
              show count + (n + 1) = count + 1 + n by omega, ih htail n (count + 1) hrest]
      · rw [tableFromTypeFrom_step hs hinside (Or.inr hmatch), if_neg hmatch, ofType_cons_of_ne hmatch, ih htail n count hrest]

/-- For each type but 127 the structure of an index is found, or `NULL` if there are fewer; the length of each structure
is that of its formatted area and its strings. -/
theorem getSmbiosTableFromType_nth (ha : a ≠ 0) (h : IsTable memory a chain last) (htype : lType ≠ typeEndOfTable)
    (lIndex : Nat) {rounds : Nat} (hrounds : chain.length < rounds) :
    (∀ p, (ofType lType a chain)[lIndex]? = some p →
        getSmbiosTableFromType memory a lType lIndex rounds = some p.1 ∧ holds memory p.1 p.2.bytes = true) ∧
      (getSmbiosTableFromType memory a lType lIndex rounds = some 0 ↔
        (chain.filter fun s => s.type == lType).length ≤ lIndex) ∧
      ∀ p ∈ located a (chain ++ [last]), smbiosTableLength memory p.1 =
        some (p.2.formatted.length + (stringSet p.2.strings).length) := by
  have hwalk : getSmbiosTableFromType memory a lType lIndex rounds =
      some (((ofType lType a chain)[lIndex]?.map Prod.fst).getD 0) := by
    have hfrom := tableFromTypeFrom_eq htype h lIndex 0 hrounds
    rw [Nat.zero_add] at hfrom
    rw [getSmbiosTableFromType, if_neg ha, hfrom]
  have hplace : ∀ p ∈ ofType lType a chain, p.1 ≠ 0 := by
    intro p hp
    have hle := le_of_mem_located (List.mem_of_mem_filter hp)
    omega
  refine ⟨?_, ?_, ?_⟩
  · intro p hp
    refine ⟨by rw [hwalk, hp]; rfl, ?_⟩
    have hmem : p ∈ located a chain := List.mem_of_mem_filter (List.mem_of_getElem? hp)
    exact h.located p ((located_append a chain [last]) ▸ List.mem_append_left _ hmem)
  · rw [hwalk, ← map_ofType lType a, List.length_map, Option.some_inj]
    cases hfound : (ofType lType a chain)[lIndex]? with
    | none => exact iff_of_true rfl (List.getElem?_eq_none_iff.mp hfound)
    | some p =>
        have hlt := (List.getElem?_eq_some_iff.mp hfound).1
        exact iff_of_false (hplace p (List.mem_of_getElem? hfound)) (Nat.not_le_of_lt hlt)
  · intro p hp
    rw [Structure.smbiosTableLength_at (h.located p hp), p.2.length_bytes]

/-- A processor with one string, a memory device without, and the end. -/
def processor : Structure := ⟨[4, 6, 0, 0, 1, 0], [[67, 80, 85]], by decide, by decide, by decide, by decide⟩
def memoryDevice : Structure := ⟨[17, 5, 1, 0, 0], [], by decide, by decide, by decide, by decide⟩
def endOfTable : Structure := ⟨[127, 4, 2, 0], [], by decide, by decide, by decide, by decide⟩

theorem smallTable_memoryDevice :
    let table := [processor, memoryDevice, endOfTable].flatMap Structure.bytes
    let memory := fun x => table.getD (x - 4096) 0
    getSmbiosTableFromType memory 4096 17 0 3 = some 4107 ∧ getSmbiosTableFromType memory 4096 17 1 3 = some 0 ∧
      smbiosTableLength memory 4096 = some 11 := by
  intro table memory
  have h : IsTable memory 4096 [processor, memoryDevice] endOfTable := ⟨by decide, by decide, by decide⟩
  have hfound := getSmbiosTableFromType_nth (by decide) h (show (17 : UInt8) ≠ typeEndOfTable by decide) 0
    (show 2 < 3 by decide)
  have hmissing := getSmbiosTableFromType_nth (by decide) h (show (17 : UInt8) ≠ typeEndOfTable by decide) 1
    (show 2 < 3 by decide)
  exact ⟨(hfound.1 (4107, memoryDevice) rfl).1, hmissing.2.1.mpr (by decide),
    hfound.2.2 (4096, processor) List.mem_cons_self⟩

end BareBoot.Smbios
