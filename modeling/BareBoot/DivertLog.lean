import BareBoot.KernelSymbols

/-! When `DivertLogFunction` writes the jump it should. -/

namespace BareBoot.Kernel

open Plist Kext

variable {kernel : KernelImage} {memory : Memory} {linkedit symtab : Nat}

/-! ### The load commands -/

section Commands

variable (kernel memory linkedit symtab)

/-- What is kept behind `i` load commands. -/
def commandsBefore (i : Nat) : SymbolCommands where
  linkeditaddr := if linkedit < i then linkeditAddr kernel memory linkedit % 2 ^ 32 else 0
  linkeditfileoff := if linkedit < i then linkeditFileOff kernel memory linkedit % 2 ^ 32 else 0
  symoff := if symtab < i then symOff kernel memory symtab else 0
  nsyms := if symtab < i then nSyms kernel memory symtab else 0
  stroff := if symtab < i then strOff kernel memory symtab else 0
  strsize := if symtab < i then strSize kernel memory symtab else 0

end Commands

theorem HasSymbols.step_before (h : HasSymbols kernel memory linkedit symtab) {i : Nat} (hi : i < commandCount kernel memory) :
    symbolStep memory (commandAt kernel memory i) (commandsBefore kernel memory linkedit symtab i) =
      commandsBefore kernel memory linkedit symtab (i + 1) := by
  have hlinkedit := h.linkedit_iff i hi
  have hsymtab := h.symtab_iff i hi
  rw [symbolStep]
  by_cases hl : i = linkedit
  · subst hl
    obtain ⟨hcmd, hname⟩ := hlinkedit.mpr rfl
    have hne : i ≠ symtab := by
      intro heq
      rw [hsymtab.mpr heq] at hcmd
      cases hcmd
    have hiff : symtab < i + 1 ↔ symtab < i := by omega
    simp only [if_pos hcmd, if_pos (And.intro h.noSections hname), commandsBefore, hiff, if_pos i.lt_succ_self]
    rfl
  · have hbefore : linkedit < i + 1 ↔ linkedit < i := by omega
    have hnot : ¬(wordAt memory 4 (commandAt kernel memory i) = 0x19 ∧
        wordAt memory 4 (commandAt kernel memory i + 64) = 0 ∧
        isNamed memory (commandAt kernel memory i + 8) (ascii "__LINKEDIT") = true) :=
      fun hall => hl (hlinkedit.mp ⟨hall.1, hall.2.2⟩)
    by_cases hs : i = symtab
    · subst hs
      have hcmd := hsymtab.mpr rfl
      simp only [hcmd, if_neg (show ¬(2 = 0x19) by decide), if_pos, commandsBefore, hbefore, if_pos i.lt_succ_self]
      rfl
    · have hsym : ¬wordAt memory 4 (commandAt kernel memory i) = 2 := fun hcmd => hs (hsymtab.mp hcmd)
      have hiff : symtab < i + 1 ↔ symtab < i := by omega
      have hsame : commandsBefore kernel memory linkedit symtab (i + 1) = commandsBefore kernel memory linkedit symtab i := by
        simp only [commandsBefore, hiff, hbefore]
      rw [hsame]
      by_cases hcmd : wordAt memory 4 (commandAt kernel memory i) = 0x19
      · rw [if_pos hcmd, if_neg fun hall => hnot ⟨hcmd, hall⟩]
      · rw [if_neg hcmd, if_neg hsym]

theorem HasSymbols.commands_all (h : HasSymbols kernel memory linkedit symtab) (ncmds i : Nat)
    (hi : i + ncmds = commandCount kernel memory) :
    symbolCommands kernel memory ncmds (commandOffset kernel memory i) (commandsBefore kernel memory linkedit symtab i) =
      commandsBefore kernel memory linkedit symtab (commandCount kernel memory) := by
  induction ncmds generalizing i with
  | zero => rw [symbolCommands, ← hi, Nat.add_zero]
  | succ ncmds ih =>
      have hmono := commandOffset_mono kernel memory (show i + 1 ≤ commandCount kernel memory by omega)
      have hfit := h.commandsFit
      have hnext : commandOffset kernel memory (i + 1) =
          commandOffset kernel memory i + wordAt memory 4 (kernel.data + commandOffset kernel memory i + 4) := rfl
      have hindex : (commandOffset kernel memory i + wordAt memory 4 (kernel.data + commandOffset kernel memory i + 4)) % 2 ^ 32 =
          commandOffset kernel memory (i + 1) := by
        rw [← hnext, Nat.mod_eq_of_lt (by omega)]
      rw [symbolCommands]
      simp only [hindex]
      rw [← ih (i + 1) (by omega), ← h.step_before (show i < commandCount kernel memory by omega)]
      rfl

/-! ### The symbols -/

/-- A scan of the symbols ends behind the first one of the name, or behind the last one. -/
theorem symbolLoop_spec (memory : Memory) (name : Bytes) (strbin left symbin : Nat) :
    ∃ n ≤ left, (symbolLoop memory name strbin left symbin).2 =
        (List.range n).map (fun k => symbolRead memory name strbin (symbin + 16 * k)) ∧
      ((∃ k, n = k + 1 ∧ isSymbol memory name strbin (symbin + 16 * k) = true ∧
          (∀ j < k, ¬isSymbol memory name strbin (symbin + 16 * j) = true) ∧
          (symbolLoop memory name strbin left symbin).1 = wordAt memory 8 (symbin + 16 * k + 8) % 2 ^ 32) ∨
        (n = left ∧ (∀ j < left, ¬isSymbol memory name strbin (symbin + 16 * j) = true) ∧
          (symbolLoop memory name strbin left symbin).1 = 0)) := by
  induction left generalizing symbin with
  | zero => exact ⟨0, le_rfl, rfl, Or.inr ⟨rfl, fun j hj => absurd hj (Nat.not_lt_zero j), rfl⟩⟩
  | succ left ih =>
      rw [symbolLoop]
      by_cases hfound : isSymbol memory name strbin symbin = true
      · simp only [if_pos hfound]
        refine ⟨1, by omega, rfl, Or.inl ⟨0, rfl, hfound, fun j hj => absurd hj (Nat.not_lt_zero j), rfl⟩⟩
      · simp only [if_neg hfound]
        obtain ⟨n, hn, hreads, hend⟩ := ih (symbin + 16)
        have hshift : ∀ k, symbin + 16 + 16 * k = symbin + 16 * (k + 1) := fun k => by omega
        simp only [hshift] at hreads hend
        refine ⟨n + 1, by omega, ?_, ?_⟩
        · rw [hreads, List.range_succ_eq_map, List.map_cons, List.map_map]
          rfl
        · rcases hend with ⟨k, rfl, hmatch, hbefore, haddr⟩ | ⟨rfl, hnone, haddr⟩
          · refine Or.inl ⟨k + 1, rfl, hmatch, ?_, haddr⟩
            intro j hj
            cases j with
            | zero => exact hfound
            | succ j => exact hbefore j (by omega)
          · refine Or.inr ⟨rfl, ?_, haddr⟩
            intro j hj
            cases j with
            | zero => exact hfound
            | succ j => exact hnone j (by omega)

/-- A string is not read beyond its end. -/
theorem comparedLength_le {text : Bytes} {a m : Nat} (hzero : memory (a + m) = 0) (htext : 0 ∉ text) :
    comparedLength memory a (text ++ [0]) ≤ m + 1 := by
  induction text generalizing a m with
  | nil =>
      rw [List.nil_append, comparedLength, comparedLength]
      split_ifs <;> omega
  | cons c text ih =>
      rw [List.mem_cons, not_or] at htext
      rw [List.cons_append, comparedLength]
      split_ifs with hsame
      · cases m with
        | zero => exact absurd (hzero.symm.trans hsame) htext.1
        | succ m =>
            have := ih (a := a + 1) (m := m) (by rwa [Nat.add_assoc, Nat.add_comm 1]) htext.2
            omega
      · omega

/-- The bytes of a number below 4 GB make it up. -/
theorem sum_wordByte {value : Nat} (h : value < 2 ^ 32) :
    (wordByte value 0).toNat + 256 * (wordByte value 1).toNat + 256 ^ 2 * (wordByte value 2).toNat +
      256 ^ 3 * (wordByte value 3).toNat = value := by
  simp only [wordByte, UInt8.toNat_ofNat']
  omega

theorem jumpDelta_eq (src dst : Nat) : jumpDelta src dst = u32 ((dst : Int) - src - 5) := by
  unfold jumpDelta u32
  split_ifs <;> omega

/-- From behind the jump the displacement leads to the target, unless it is too far back for 32 bits. -/
theorem jumpsTo_iff {src dst : Nat} : JumpsTo src dst [0xE9, wordByte (jumpDelta src dst) 0, wordByte (jumpDelta src dst) 1,
      wordByte (jumpDelta src dst) 2, wordByte (jumpDelta src dst) 3, 0xC3] ↔
    ¬(2 ^ 31 < (src : Int) - dst + 5 ∧ (src : Int) - dst < 2 ^ 31) := by
  have hsum := @sum_wordByte (jumpDelta src dst) (by rw [jumpDelta_eq]; exact u32_lt _)
  have hvalue : i32 ((wordByte (jumpDelta src dst) 0).toNat + 256 * (wordByte (jumpDelta src dst) 1).toNat +
      256 ^ 2 * (wordByte (jumpDelta src dst) 2).toNat + 256 ^ 3 * (wordByte (jumpDelta src dst) 3).toNat) =
        i32 ((u32 ((dst : Int) - src - 5) : Nat) : Int) := by
    rw [← jumpDelta_eq]
    apply congrArg
    exact_mod_cast hsum
  have hi32 : i32 ((u32 ((dst : Int) - src - 5) : Nat) : Int) = ((dst : Int) - src - 5).bmod (2 ^ 32) := by
    unfold i32 u32
    rw [Int.toNat_of_nonneg (by omega)]
    exact_mod_cast Int.emod_bmod ((dst : Int) - src - 5) (2 ^ 32)
  constructor
  · rintro ⟨b0, b1, b2, b3, hbytes, htarget⟩ hfar
    simp only [List.cons.injEq, and_true, true_and] at hbytes
    obtain ⟨rfl, rfl, rfl, rfl⟩ := hbytes
    have hjump := htarget (by omega) (by omega)
    rw [hvalue, hi32, Int.bmod_def] at hjump
    split_ifs at hjump <;> omega
  · intro hnear
    refine ⟨_, _, _, _, rfl, ?_⟩
    intro hlow hhigh
    rw [hvalue, hi32, Int.bmod_def]
    split_ifs <;> omega

/-! ### Where the symbols are looked for -/

section Bases

variable (kernel memory linkedit symtab)

/-- The address that is computed for a byte of the file. -/
def baseAt (off : Nat) : Nat :=
  u32 (((linkeditAddr kernel memory linkedit % 2 ^ 32 : Nat) : Int) +
    (off - (linkeditFileOff kernel memory linkedit % 2 ^ 32 : Nat)))

end Bases

theorem HasSymbols.getFunction_eq (h : HasSymbols kernel memory linkedit symtab) (name : Bytes) :
    getFunction kernel memory name =
      if linkeditAddr kernel memory linkedit % 2 ^ 32 ≠ 0 ∧ symOff kernel memory symtab ≠ 0 then
        symbolLoop memory name (baseAt kernel memory linkedit (strOff kernel memory symtab)) (nSyms kernel memory symtab)
          (baseAt kernel memory linkedit (symOff kernel memory symtab))
      else (0, []) := by
  have hstart : commandsBefore kernel memory linkedit symtab 0 = ⟨0, 0, 0, 0, 0, 0⟩ := rfl
  have hcommands := h.commands_all (commandCount kernel memory) 0 (Nat.zero_add _)
  have hall : commandsBefore kernel memory linkedit symtab (commandCount kernel memory) =
      ⟨linkeditAddr kernel memory linkedit % 2 ^ 32, linkeditFileOff kernel memory linkedit % 2 ^ 32,
        symOff kernel memory symtab, nSyms kernel memory symtab, strOff kernel memory symtab,
        strSize kernel memory symtab⟩ := by
    simp only [commandsBefore, if_pos h.linkedit_lt, if_pos h.symtab_lt]
  rw [hstart, hall] at hcommands
  change symbolCommands kernel memory (wordAt memory 4 (kernel.data + 16)) 32 _ = _ at hcommands
  rw [getFunction, h.is64]
  simp only [if_true, hcommands]
  rfl

/-- The symbols are looked for where they are exactly if the kernel is where it was linked. -/
theorem HasSymbols.base_eq_iff (h : HasSymbols kernel memory linkedit symtab)
    (hfound : linkeditAddr kernel memory linkedit % 2 ^ 32 ≠ 0) :
    baseAt kernel memory linkedit (symOff kernel memory symtab) = symbolAt kernel memory linkedit symtab 0 ↔
      kernel.relocBase % 2 ^ 32 = 0 := by
  have hlow := h.loadedLow
  have hsym := h.symbolsInside
  have hoff : symOff kernel memory symtab < 256 ^ 4 := wordAt_lt memory 4 _
  have hne : linkeditAddr kernel memory linkedit ≠ 0 := by
    intro hzero
    rw [hzero] at hfound
    exact hfound rfl
  rw [loadedAt, if_neg hne] at hlow
  rw [symbolAt, loadedOff, loadedAt, if_neg hne, baseAt]
  unfold u32
  omega

theorem HasSymbols.bases (h : HasSymbols kernel memory linkedit symtab)
    (hfound : linkeditAddr kernel memory linkedit % 2 ^ 32 ≠ 0) (hreloc : kernel.relocBase % 2 ^ 32 = 0) :
    baseAt kernel memory linkedit (symOff kernel memory symtab) = symbolAt kernel memory linkedit symtab 0 ∧
      baseAt kernel memory linkedit (strOff kernel memory symtab) = stringsAt kernel memory linkedit symtab := by
  refine ⟨(h.base_eq_iff hfound).mpr hreloc, ?_⟩
  have hlow := h.loadedLow
  have hsym := h.symbolsInside
  have hstr := h.stringsInside
  have hoff : symOff kernel memory symtab < 256 ^ 4 := wordAt_lt memory 4 _
  have hne : linkeditAddr kernel memory linkedit ≠ 0 := by
    intro hzero
    rw [hzero] at hfound
    exact hfound rfl
  rw [loadedAt, if_neg hne] at hlow
  rw [stringsAt, loadedOff, loadedAt, if_neg hne, baseAt]
  unfold u32
  omega

/-- A kernel at its place: only its symbols are read, and the address is that of the function. -/
theorem HasSymbols.getFunction_spec (h : HasSymbols kernel memory linkedit symtab)
    (hfound : Found kernel memory linkedit symtab) (hreloc : kernel.relocBase % 2 ^ 32 = 0) (name : Bytes) :
    ReadsSymbols kernel memory linkedit symtab (getFunction kernel memory name).2 ∧
      ((∃ k, IsFirst kernel memory linkedit symtab name k ∧
          (getFunction kernel memory name).1 = functionAt kernel memory linkedit symtab k) ∨
        (Missing kernel memory linkedit symtab name ∧ (getFunction kernel memory name).1 = 0)) := by
  obtain ⟨hsymbols, hstrings⟩ := h.bases hfound.1 hreloc
  have hentry : ∀ k, symbolAt kernel memory linkedit symtab 0 + 16 * k = symbolAt kernel memory linkedit symtab k := by
    intro k
    rw [symbolAt, symbolAt, Nat.mul_zero, Nat.add_zero]
  rw [Found] at hfound
  rw [h.getFunction_eq, if_pos hfound, hsymbols, hstrings]
  obtain ⟨n, hn, hreads, hend⟩ := symbolLoop_spec memory name (stringsAt kernel memory linkedit symtab)
    (nSyms kernel memory symtab) (symbolAt kernel memory linkedit symtab 0)
  simp only [hentry] at hreads hend
  refine ⟨⟨⟨n, hn, ?_⟩, ?_⟩, ?_⟩
  · rw [hreads, List.map_map]
    rfl
  · intro read hread
    rw [hreads, List.mem_map] at hread
    obtain ⟨k, hk, rfl⟩ := hread
    rw [List.mem_range] at hk
    obtain ⟨m, hle, hlt, hzero⟩ := h.terminated k (by omega)
    refine ⟨rfl, ?_⟩
    have hlength := @comparedLength_le memory (cstr name)
      (stringsAt kernel memory linkedit symtab + wordAt memory 4 (symbolAt kernel memory linkedit symtab k))
      (m - wordAt memory 4 (symbolAt kernel memory linkedit symtab k))
      (by rwa [Nat.add_assoc, Nat.add_sub_cancel' hle]) (zero_not_mem_cstr name)
    simp only [symbolRead]
    omega
  · rcases hend with ⟨k, rfl, hmatch, hbefore, haddr⟩ | ⟨rfl, hnone, haddr⟩
    · refine Or.inl ⟨k, ⟨by omega, hmatch, hbefore⟩, ?_⟩
      rw [haddr, functionAt, loadedAt]
      split_ifs with hzero
      · rw [hzero, Nat.zero_mod]
      · omega
    · exact Or.inr ⟨fun k hk => hnone k hk.1 hk.2.1, haddr⟩

theorem IsFirst.unique {name : Bytes} {i j : Nat} (h : IsFirst kernel memory linkedit symtab name i)
    (h' : IsFirst kernel memory linkedit symtab name j) : i = j := by
  rcases Nat.lt_trichotomy i j with hlt | heq | hlt
  · exact absurd h.2.1 (h'.2.2 i hlt)
  · exact heq
  · exact absurd h'.2.1 (h.2.2 j hlt)

theorem IsFirst.not_missing {name : Bytes} {k : Nat} (h : IsFirst kernel memory linkedit symtab name k) :
    ¬Missing kernel memory linkedit symtab name := fun hmissing => hmissing k h

/-- Where symbols are read, they are those loaded only in a kernel at its place. -/
theorem HasSymbols.reloc_of_reads (h : HasSymbols kernel memory linkedit symtab) (hsome : nSyms kernel memory symtab ≠ 0)
    (hfound : Found kernel memory linkedit symtab) {name : Bytes}
    (hreads : ReadsSymbols kernel memory linkedit symtab (getFunction kernel memory name).2) :
    kernel.relocBase % 2 ^ 32 = 0 := by
  rw [Found] at hfound
  rw [h.getFunction_eq, if_pos hfound] at hreads
  obtain ⟨n, hn, hmap⟩ := hreads.1
  obtain ⟨m, -, hreads', hend⟩ := symbolLoop_spec memory name
    (baseAt kernel memory linkedit (strOff kernel memory symtab)) (nSyms kernel memory symtab)
    (baseAt kernel memory linkedit (symOff kernel memory symtab))
  have hm : m ≠ 0 := by
    rcases hend with ⟨k, rfl, -⟩ | ⟨rfl, -⟩
    · exact Nat.succ_ne_zero k
    · exact hsome
  obtain ⟨m, rfl⟩ := Nat.exists_eq_succ_of_ne_zero hm
  rw [hreads', List.map_map] at hmap
  have hlength := congrArg List.length hmap
  rw [List.length_map, List.length_map, List.length_range, List.length_range] at hlength
  subst hlength
  rw [List.range_succ_eq_map, List.map_cons, List.map_cons, List.cons.injEq] at hmap
  have hhead := hmap.1
  simp only [Function.comp_apply, symbolRead, Nat.mul_zero, Nat.add_zero] at hhead
  exact (h.base_eq_iff hfound.1).mp hhead

theorem HasSymbols.diverts_of_reloc (h : HasSymbols kernel memory linkedit symtab)
    (hfound : Found kernel memory linkedit symtab) (hreloc : kernel.relocBase % 2 ^ 32 = 0) (srcName dstName : Bytes) :
    Diverts kernel memory linkedit symtab srcName dstName ↔
      ∀ i j, IsFirst kernel memory linkedit symtab srcName i → IsFirst kernel memory linkedit symtab dstName j →
        Reachable (functionAt kernel memory linkedit symtab i) (functionAt kernel memory linkedit symtab j) := by
  obtain ⟨hdstReads, hdst⟩ := h.getFunction_spec hfound hreloc dstName
  obtain ⟨hsrcReads, hsrc⟩ := h.getFunction_spec hfound hreloc srcName
  have hreads : (divertLogFunction kernel memory srcName dstName).dstReads = (getFunction kernel memory dstName).2 ∧
      (divertLogFunction kernel memory srcName dstName).srcReads = (getFunction kernel memory srcName).2 := by
    rw [divertLogFunction]
    split_ifs <;> exact ⟨rfl, rfl⟩
  rw [Diverts, hreads.1, hreads.2, and_iff_right hdstReads, and_iff_right hsrcReads, divertLogFunction]
  rcases hsrc with ⟨i, hi, hsrc⟩ | ⟨hmissing, hsrc⟩
  · rcases hdst with ⟨j, hj, hdst⟩ | ⟨hmissing, hdst⟩
    · have hneither : ¬(Missing kernel memory linkedit symtab srcName ∨ Missing kernel memory linkedit symtab dstName) :=
        fun hor => hor.elim hi.not_missing hj.not_missing
      rw [hsrc, hdst]
      constructor
      · rintro ⟨-, hall⟩ i' j' hi' hj'
        rw [hi'.unique hi, hj'.unique hj]
        obtain ⟨bytes, hstored, hjump⟩ := hall i j hi hj
        split_ifs at hstored with hzero
        · rw [not_or] at hzero
          obtain ⟨-, rfl⟩ := Prod.mk.inj (Option.some.inj hstored)
          exact ⟨hzero.2, hzero.1, jumpsTo_iff.mp hjump⟩
      · intro hall
        refine ⟨fun hor => absurd hor hneither, ?_⟩
        intro i' j' hi' hj'
        rw [hi'.unique hi, hj'.unique hj]
        obtain ⟨hsrc0, hdst0, hnear⟩ := hall i j hi hj
        rw [if_neg (not_or.mpr ⟨hdst0, hsrc0⟩)]
        exact ⟨_, rfl, jumpsTo_iff.mpr hnear⟩
    · rw [if_pos (Or.inl hdst)]
      exact ⟨fun _ i j _ hj => absurd hmissing hj.not_missing,
        fun _ => ⟨fun _ => rfl, fun i j _ hj => absurd hmissing hj.not_missing⟩⟩
  · rw [if_pos (Or.inr hsrc)]
    exact ⟨fun _ i j hi _ => absurd hmissing hi.not_missing,
      fun _ => ⟨fun _ => rfl, fun i j hi _ => absurd hmissing hi.not_missing⟩⟩

/-- Without anything to look through nothing is read or stored. -/
theorem diverts_of_nothing {srcName dstName : Bytes} (hsrc : getFunction kernel memory srcName = (0, []))
    (hdst : getFunction kernel memory dstName = (0, [])) :
    Diverts kernel memory linkedit symtab srcName dstName ↔
      Missing kernel memory linkedit symtab srcName ∨ Missing kernel memory linkedit symtab dstName := by
  have hrun : divertLogFunction kernel memory srcName dstName = ⟨none, [], []⟩ := by
    rw [divertLogFunction, hsrc, hdst]
    rfl
  have hnone : ReadsSymbols kernel memory linkedit symtab [] :=
    ⟨⟨0, Nat.zero_le _, rfl⟩, fun read hread => absurd hread List.not_mem_nil⟩
  rw [Diverts, hrun, and_iff_right hnone, and_iff_right hnone]
  constructor
  · rintro ⟨-, hall⟩
    by_contra hneither
    rw [not_or, Missing, Missing, not_forall_not, not_forall_not] at hneither
    obtain ⟨⟨i, hi⟩, j, hj⟩ := hneither
    obtain ⟨bytes, hstored, -⟩ := hall i j hi hj
    cases hstored
  · intro hmissing
    refine ⟨fun _ => rfl, ?_⟩
    intro i j hi hj
    exact absurd hmissing (not_or.mpr ⟨hi.not_missing, hj.not_missing⟩)

/-- The jump is written as it should be exactly in a kernel at the place it was linked for whose functions can be reached,
and where there is nothing to write. -/
theorem divertLogFunction_iff (h : HasSymbols kernel memory linkedit symtab) (srcName dstName : Bytes) :
    Diverts kernel memory linkedit symtab srcName dstName ↔
      DivertCondition kernel memory linkedit symtab srcName dstName := by
  rw [DivertCondition]
  by_cases hfound : Found kernel memory linkedit symtab
  · by_cases hnone : nSyms kernel memory symtab = 0
    · have hempty : ∀ name, getFunction kernel memory name = (0, []) := by
        intro name
        rw [h.getFunction_eq, hnone]
        split_ifs <;> rfl
      have hmissing : Missing kernel memory linkedit symtab srcName := by
        intro k hk
        have := hk.1
        omega
      rw [diverts_of_nothing (hempty srcName) (hempty dstName)]
      exact ⟨fun _ => Or.inl hnone, fun _ => Or.inl hmissing⟩
    · rw [or_iff_right hnone, or_iff_right fun hnot => hnot.1 hfound, and_iff_right hfound]
      constructor
      · intro hdiverts
        have hreads : ReadsSymbols kernel memory linkedit symtab (getFunction kernel memory dstName).2 := by
          have hdst := hdiverts.1
          rw [divertLogFunction] at hdst
          split_ifs at hdst <;> exact hdst
        have hreloc := h.reloc_of_reads hnone hfound hreads
        exact ⟨hreloc, (h.diverts_of_reloc hfound hreloc srcName dstName).mp hdiverts⟩
      · rintro ⟨hreloc, hall⟩
        exact (h.diverts_of_reloc hfound hreloc srcName dstName).mpr hall
  · have hempty : ∀ name, getFunction kernel memory name = (0, []) := by
      intro name
      rw [Found] at hfound
      rw [h.getFunction_eq, if_neg hfound]
    rw [diverts_of_nothing (hempty srcName) (hempty dstName)]
    constructor
    · exact fun hmissing => Or.inr (Or.inl ⟨hfound, hmissing⟩)
    · rintro (hnone | ⟨-, hmissing⟩ | ⟨hyes, -⟩)
      · refine Or.inl fun k hk => ?_
        have := hk.1
        omega
      · exact hmissing
      · exact absurd hyes hfound

/-- A kernel with the functions `a` and `b`: the header, `__LINKEDIT`, the symbol table with its strings. -/
def twoSymbolsImage : Bytes :=
  [0xCF, 0xFA, 0xED, 0xFE] ++ List.replicate 12 0 ++ [2] ++ List.replicate 15 0 ++
    ([0x19, 0, 0, 0, 72, 0, 0, 0] ++ ascii "__LINKEDIT" ++ List.replicate 6 0 ++ [0x00, 0x01, 0x20, 0, 0, 0, 0, 0] ++
      [0x00, 0x01, 0, 0, 0, 0, 0, 0] ++ [0x00, 0x01, 0, 0, 0, 0, 0, 0] ++ [0x00, 0x01, 0, 0, 0, 0, 0, 0] ++
      List.replicate 16 0) ++
    [2, 0, 0, 0, 24, 0, 0, 0, 0x00, 0x01, 0, 0, 2, 0, 0, 0, 0x20, 0x01, 0, 0, 8, 0, 0, 0] ++ List.replicate 128 0 ++
    [1, 0, 0, 0, 0, 0, 0, 0, 0x00, 0x10, 0x20, 0, 0, 0, 0, 0] ++ [3, 0, 0, 0, 0, 0, 0, 0, 0x00, 0x20, 0x20, 0, 0, 0, 0, 0] ++
    [0, 97, 0, 98, 0, 0, 0, 0]

/-- The kernel as it is linked, or 16 MB above. -/
def twoSymbols (moved : Bool) : KernelImage :=
  if moved then ⟨0x1200000, 0x1000000, true⟩ else ⟨0x200000, 0, true⟩

def twoSymbolsMemory (moved : Bool) : Memory := fun x =>
  if x < (twoSymbols moved).data then 0 else twoSymbolsImage.getD (x - (twoSymbols moved).data) 0

theorem twoSymbols_hasSymbols (moved : Bool) : HasSymbols (twoSymbols moved) (twoSymbolsMemory moved) 0 1 := by
  have hcount : commandCount (twoSymbols moved) (twoSymbolsMemory moved) = 2 := by cases moved <;> decide +kernel
  constructor
  · cases moved <;> rfl
  · cases moved <;> decide +kernel
  · cases moved <;> decide +kernel
  · cases moved <;> decide +kernel
  · intro i hi
    rw [hcount] at hi
    unfold IsLinkedit
    interval_cases i <;> cases moved <;> decide +kernel
  · cases moved <;> decide +kernel
  · cases moved <;> decide +kernel
  · intro i hi
    rw [hcount] at hi
    interval_cases i <;> cases moved <;> decide +kernel
  · cases moved <;> decide +kernel
  · cases moved <;> decide +kernel
  · cases moved <;> decide +kernel
  · have hsyms : nSyms (twoSymbols moved) (twoSymbolsMemory moved) 1 = 2 := by cases moved <;> decide +kernel
    intro k hk
    rw [hsyms] at hk
    interval_cases k
    · exact ⟨2, by cases moved <;> decide +kernel⟩
    · exact ⟨4, by cases moved <;> decide +kernel⟩

theorem twoSymbols_diverts_iff :
    Diverts (twoSymbols false) (twoSymbolsMemory false) 0 1 [97] [98] ↔
      DivertCondition (twoSymbols false) (twoSymbolsMemory false) 0 1 [97] [98] :=
  divertLogFunction_iff (twoSymbols_hasSymbols false) [97] [98]

/-- In a kernel that was moved the symbols are looked for where it was linked. -/
theorem twoSymbols_moved :
    ¬∀ (kernel : KernelImage) (memory : Memory) (linkedit symtab : Nat), HasSymbols kernel memory linkedit symtab →
      ∀ srcName dstName, Diverts kernel memory linkedit symtab srcName dstName := by
  intro hall
  have hsymbols := twoSymbols_hasSymbols true
  have hdst := (hall _ _ 0 1 hsymbols [97] [98]).1
  have hreads : ReadsSymbols (twoSymbols true) (twoSymbolsMemory true) 0 1
      (getFunction (twoSymbols true) (twoSymbolsMemory true) [98]).2 := by
    rw [divertLogFunction] at hdst
    split_ifs at hdst <;> exact hdst
  have hreloc := hsymbols.reloc_of_reads (by decide +kernel) (by unfold Found; decide +kernel) hreads
  exact absurd hreloc (by decide)

end BareBoot.Kernel
