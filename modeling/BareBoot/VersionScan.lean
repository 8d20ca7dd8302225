import BareBoot.SectionPatches
import BareBoot.KernelVersion

/-! What `GetKernelVersion` reads: the scan for the text and the one for the colon behind the version stay in a section
exactly if the section has both, or if it has no beginning of the text at its end. -/

namespace BareBoot.Kernel

open Plist Kext

variable {kernel : KernelImage} {memory : Memory} {segment name : Bytes}

/-! ### Reads -/

/-- A comparison reads a byte if everything before it agrees. -/
theorem mem_comparedBytes {a x : Nat} {text : Bytes} :
    x ∈ comparedBytes memory a text ↔ ∃ k < text.length, x = a + k ∧ holds memory a (text.take k) = true := by
  induction text generalizing a with
  | nil => simp [comparedBytes]
  | cons c cs ih =>
      rw [comparedBytes, List.mem_cons]
      constructor
      · rintro (rfl | h)
        · exact ⟨0, Nat.succ_pos _, rfl, rfl⟩
        · split_ifs at h with hc
          · obtain ⟨k, hk, rfl, hholds⟩ := ih.1 h
            refine ⟨k + 1, Nat.succ_lt_succ hk, by omega, ?_⟩
            rw [List.take_succ_cons, holds_cons]
            exact ⟨hc, hholds⟩
          · cases h
      · rintro ⟨k, hk, rfl, hholds⟩
        cases k with
        | zero => exact Or.inl rfl
        | succ k =>
            rw [List.take_succ_cons, holds_cons] at hholds
            rw [if_pos hholds.1]
            exact Or.inr (ih.2 ⟨k, Nat.lt_of_succ_lt_succ hk, by omega, hholds.2⟩)

/-- The scan ends at the first place where the text stands, with everything read up to there. -/
theorem findVersion_spec (memory : Memory) (left a : Nat) :
    ((∀ k < left, ¬holds memory (a + k) darwinKernelVersion = true) ∧ (findVersion memory left a).1 = none ∧
        ∀ x, x ∈ (findVersion memory left a).2 ↔ ∃ k < left, x ∈ comparedBytes memory (a + k) darwinKernelVersion) ∨
      ∃ k < left, holds memory (a + k) darwinKernelVersion = true ∧
        (∀ k' < k, ¬holds memory (a + k') darwinKernelVersion = true) ∧ (findVersion memory left a).1 = some (a + k) ∧
        ∀ x, x ∈ (findVersion memory left a).2 ↔ ∃ k' ≤ k, x ∈ comparedBytes memory (a + k') darwinKernelVersion := by
  induction left generalizing a with
  | zero => exact Or.inl ⟨fun k hk => absurd hk (Nat.not_lt_zero k), rfl, fun x => by simp [findVersion]⟩
  | succ left ih =>
      rw [findVersion]
      split_ifs with hhere
      · refine Or.inr ⟨0, Nat.succ_pos _, hhere, fun k hk => absurd hk (Nat.not_lt_zero k), rfl, fun x => ?_⟩
        simp only [Nat.le_zero, exists_eq_left, Nat.add_zero]
      · have hat (k : Nat) : a + 1 + k = a + (k + 1) := by omega
        have hmem (x bound : Nat) : (x ∈ comparedBytes memory a darwinKernelVersion ∨
            ∃ k < bound, x ∈ comparedBytes memory (a + 1 + k) darwinKernelVersion) ↔
            ∃ k < bound + 1, x ∈ comparedBytes memory (a + k) darwinKernelVersion := by
          constructor
          · rintro (h | ⟨k, hk, h⟩)
            · exact ⟨0, Nat.succ_pos _, h⟩
            · exact ⟨k + 1, Nat.succ_lt_succ hk, hat k ▸ h⟩
          · rintro ⟨k, hk, h⟩
            cases k with
            | zero => exact Or.inl h
            | succ k => exact Or.inr ⟨k, Nat.lt_of_succ_lt_succ hk, (hat k).symm ▸ h⟩
        have hbefore {bound : Nat} (h : ∀ k < bound, ¬holds memory (a + 1 + k) darwinKernelVersion = true) :
            ∀ k < bound + 1, ¬holds memory (a + k) darwinKernelVersion = true := by
          intro k hk
          cases k with
          | zero => exact hhere
          | succ k => exact hat k ▸ h k (Nat.lt_of_succ_lt_succ hk)
        rcases ih (a + 1) with ⟨hnone, hresult, hreads⟩ | ⟨k, hk, hfound, hfirst, hresult, hreads⟩
        · refine Or.inl ⟨hbefore hnone, hresult, fun x => ?_⟩
          rw [List.mem_append, hreads, hmem]
        · refine Or.inr ⟨k + 1, Nat.succ_lt_succ hk, hat k ▸ hfound, hbefore hfirst, by rw [hresult, hat], fun x => ?_⟩
          have hle (m : Nat) : (∃ k' ≤ m, x ∈ comparedBytes memory (a + 1 + k') darwinKernelVersion) ↔
              ∃ k' < m + 1, x ∈ comparedBytes memory (a + 1 + k') darwinKernelVersion := by
            simp only [Nat.lt_succ_iff]
          rw [List.mem_append, hreads, hle, hmem]
          simp only [Nat.lt_succ_iff]

theorem le_of_mem_findColon {left i2 x : Nat} (h : x ∈ (findColon memory left i2).2) : i2 ≤ x := by
  induction left generalizing i2 with
  | zero => cases h
  | succ left ih =>
      rw [findColon] at h
      split_ifs at h
      · exact (List.mem_singleton.1 h).ge
      · rcases List.mem_cons.1 h with rfl | h
        · exact le_rfl
        · exact (Nat.le_succ _).trans (ih h)

/-- The scan for a colon stays below a bound if one stands there. -/
theorem findColon_below {left i2 hi : Nat} (hpos : 0 < left) (hleft : hi < i2 + left) :
    (∀ x ∈ (findColon memory left i2).2, x < hi) ↔ ∃ j, i2 ≤ j ∧ j < hi ∧ memory j = 58 := by
  induction left generalizing i2 with
  | zero => cases hpos
  | succ left ih =>
      rw [findColon]
      split_ifs with hcolon
      · simp only [List.mem_singleton, forall_eq]
        constructor
        · exact fun h => ⟨i2, le_rfl, h, hcolon⟩
        · rintro ⟨j, hj, hlt, -⟩
          exact lt_of_le_of_lt hj hlt
      · rw [List.forall_mem_cons]
        by_cases hi2 : i2 < hi
        · rw [ih (by omega) (by omega)]
          constructor
          · rintro ⟨-, j, hj, hlt, h58⟩
            exact ⟨j, by omega, hlt, h58⟩
          · rintro ⟨j, hj, hlt, h58⟩
            have hne : j ≠ i2 := fun heq => hcolon (heq ▸ h58)
            exact ⟨by omega, j, by omega, hlt, h58⟩
        · constructor
          · exact fun h => absurd h.1 hi2
          · rintro ⟨j, hj, hlt, -⟩
            exact absurd (lt_of_le_of_lt hj hlt) hi2

/-! ### A section -/

/-- The text stands in the bytes, with a colon behind the version. -/
def VersionFollowed (memory : Memory) (addr size : Nat) : Prop :=
  ∃ i, i + 21 ≤ size ∧ holds memory (addr + i) darwinKernelVersion = true ∧
    (∀ k < i, ¬holds memory (addr + k) darwinKernelVersion = true) ∧
    ∃ j, i + 22 ≤ j ∧ j < size ∧ memory (addr + j) = 58

/-- The text does not stand in the bytes, and they do not end in a beginning of it. -/
def VersionAbsent (memory : Memory) (addr size : Nat) : Prop :=
  (∀ i < size, ¬holds memory (addr + i) darwinKernelVersion = true) ∧
    ∀ i < size, size < i + 21 → ¬holds memory (addr + i) (darwinKernelVersion.take (size - i)) = true

theorem length_darwinKernelVersion : darwinKernelVersion.length = 21 := by decide

theorem holds_take {a k m : Nat} {text : Bytes} (h : holds memory a (text.take m) = true) (hk : k ≤ m) :
    holds memory a (text.take k) = true := by
  rw [← List.take_append_drop k (text.take m), holds_append, Bool.and_eq_true, List.take_take, Nat.min_eq_left hk] at h
  exact h.1

/-- The comparisons at the places before a bound stay before the end exactly if no beginning of the text is the end. -/
theorem comparedBytes_below {addr size i : Nat} (hi : i < size) :
    (∀ x ∈ comparedBytes memory (addr + i) darwinKernelVersion, x < addr + size) ↔
      (size < i + 21 → ¬holds memory (addr + i) (darwinKernelVersion.take (size - i)) = true) := by
  constructor
  · intro h hshort hholds
    have := h (addr + i + (size - i)) (mem_comparedBytes.2 ⟨size - i, by rw [length_darwinKernelVersion]; omega, rfl, hholds⟩)
    omega
  · intro h x hx
    obtain ⟨k, hk, rfl, hholds⟩ := mem_comparedBytes.1 hx
    rw [length_darwinKernelVersion] at hk
    by_contra hbeyond
    exact h (by omega) (holds_take hholds (by omega))

theorem le_of_mem_comparedBytes {a x : Nat} {text : Bytes} (h : x ∈ comparedBytes memory a text) : a ≤ x := by
  obtain ⟨k, -, rfl, -⟩ := mem_comparedBytes.1 h
  exact Nat.le_add_right _ _

/-- What is read in one section. -/
def scanReads (memory : Memory) (addr size : Nat) : List Nat :=
  (findVersion memory size addr).2 ++
    match (findVersion memory size addr).1 with
    | none => []
    | some i => (findColon memory (2 ^ 64 - (i + 22)) (i + 22)).2

theorem le_of_mem_scanReads {addr size x : Nat} (h : x ∈ scanReads memory addr size) : addr ≤ x := by
  have hcompared {a k : Nat} (h : x ∈ comparedBytes memory (a + k) darwinKernelVersion) : a ≤ x :=
    (Nat.le_add_right _ _).trans (le_of_mem_comparedBytes h)
  rcases findVersion_spec memory size addr with ⟨-, hresult, hreads⟩ | ⟨k, -, -, -, hresult, hreads⟩ <;>
    rw [scanReads, hresult, List.mem_append] at h
  · rcases h with h | h
    · obtain ⟨k, -, h⟩ := (hreads x).1 h
      exact hcompared h
    · cases h
  · rcases h with h | h
    · obtain ⟨k', -, h⟩ := (hreads x).1 h
      exact hcompared h
    · have := le_of_mem_findColon h
      omega

theorem scanReads_first {addr size : Nat} (hsize : 0 < size) : addr ∈ scanReads memory addr size := by
  have hfirst : addr ∈ comparedBytes memory (addr + 0) darwinKernelVersion :=
    mem_comparedBytes.2 ⟨0, by decide, rfl, rfl⟩
  rw [scanReads, List.mem_append]
  left
  rcases findVersion_spec memory size addr with ⟨-, -, hreads⟩ | ⟨k, -, -, -, -, hreads⟩
  · exact (hreads addr).2 ⟨0, hsize, hfirst⟩
  · exact (hreads addr).2 ⟨0, Nat.zero_le k, hfirst⟩

theorem scanReads_below {addr size : Nat} (hlow : addr + size < 2 ^ 32) :
    (∀ x ∈ scanReads memory addr size, x < addr + size) ↔
      VersionFollowed memory addr size ∨ VersionAbsent memory addr size := by
  rcases findVersion_spec memory size addr with ⟨hnone, hresult, hreads⟩ | ⟨k, hk, hfound, hfirst, hresult, hreads⟩
  · have hfollowed : ¬VersionFollowed memory addr size := by
      rintro ⟨i, hi, hholds, -⟩
      exact hnone i (by omega) hholds
    rw [or_iff_right hfollowed, VersionAbsent, and_iff_right hnone, scanReads, hresult, List.append_nil]
    constructor
    · intro h i hi
      exact (comparedBytes_below hi).1 fun x hx => h x ((hreads x).2 ⟨i, hi, hx⟩)
    · intro h x hx
      obtain ⟨i, hi, hx⟩ := (hreads x).1 hx
      exact (comparedBytes_below hi).2 (h i hi) x hx
  · have habsent : ¬VersionAbsent memory addr size := fun h => h.1 k hk hfound
    rw [or_iff_left habsent, scanReads, hresult, List.forall_mem_append]
    have hcolon : (∀ x ∈ (findColon memory (2 ^ 64 - (addr + k + 22)) (addr + k + 22)).2, x < addr + size) ↔
        ∃ j, addr + k + 22 ≤ j ∧ j < addr + size ∧ memory j = 58 := findColon_below (by omega) (by omega)
    rw [hcolon]
    constructor
    · rintro ⟨hcompared, j, hj, hlt, h58⟩
      have hjaddr : addr + (j - addr) = j := by omega
      exact ⟨k, by omega, hfound, hfirst, j - addr, by omega, by omega, hjaddr.symm ▸ h58⟩
    · rintro ⟨i, hi, hholds, hbefore, j, hj, hlt, h58⟩
      obtain rfl : i = k := by
        rcases Nat.lt_trichotomy i k with h | h | h
        · exact absurd hholds (hfirst i h)
        · exact h
        · exact absurd hfound (hbefore k h)
      refine ⟨fun x hx => ?_, addr + j, by omega, by omega, h58⟩
      obtain ⟨k', hk', hx⟩ := (hreads x).1 hx
      exact (comparedBytes_below (by omega)).2 (fun h => absurd h (by omega)) x hx

/-! ### The two sections -/

/-- The sections up to the one with the text are there, and each can be read in that way. -/
def VersionWithin (kernel : KernelImage) (memory : Memory) : List Bytes → Prop
  | [] => True
  | name :: names => ∃ layout sect, IsSection kernel memory (ascii "__TEXT") name layout sect ∧ 0 < sectSize memory layout sect ∧
      (VersionFollowed memory (sectAddr kernel memory layout sect) (sectSize memory layout sect) ∨
        VersionAbsent memory (sectAddr kernel memory layout sect) (sectSize memory layout sect) ∧
          VersionWithin kernel memory names)

/-- The search ends or goes on without end, and reads nothing but the section looked up last. -/
def VersionStays (kernel : KernelImage) (memory : Memory) (names : List Bytes) (range : Range) : Prop :=
  ∃ out, versionLoop kernel memory names range = some out ∧ ∀ access ∈ out.2, access.Within kernel memory

theorem versionStays_step {names : List Bytes} {range before : Range} (hlow : range.addr + range.size < 2 ^ 32)
    (h : getSection kernel memory (ascii "__TEXT") name before = some range) :
    VersionStays kernel memory (name :: names) before ↔
      (∀ x ∈ scanReads memory range.addr range.size, InSection kernel memory (ascii "__TEXT") name x) ∧
        ((findVersion memory range.size range.addr).1 = none → VersionStays kernel memory names range) := by
  have hcount : (range.addr + range.size) % 2 ^ 32 - range.addr = range.size := by
    rw [Nat.mod_eq_of_lt hlow, Nat.add_sub_cancel_left]
  rw [VersionStays, versionLoop, h, Option.bind_eq_bind, Option.bind_some]
  have hwithin (xs : List Nat) : (∀ access ∈ xs.map (Access.mk (some (ascii "__TEXT", name))), access.Within kernel memory) ↔
      ∀ x ∈ xs, InSection kernel memory (ascii "__TEXT") name x := List.forall_mem_map
  simp only [hcount, scanReads]
  rcases hfound : (findVersion memory range.size range.addr).1 with _ | i
  · simp only [List.append_nil, forall_true_left, Option.bind_eq_bind, Option.pure_def]
    rw [← hwithin]
    constructor
    · rintro ⟨out, hout, haccesses⟩
      obtain ⟨rest, hrest, hpure⟩ := Option.bind_eq_some_iff.1 hout
      cases hpure
      rw [List.forall_mem_append] at haccesses
      exact ⟨haccesses.1, rest, hrest, haccesses.2⟩
    · rintro ⟨hfirst, rest, hrest, haccesses⟩
      rw [hrest]
      exact ⟨_, rfl, List.forall_mem_append.2 ⟨hfirst, haccesses⟩⟩
  · simp only [reduceCtorEq, false_imp_iff, and_true, Option.pure_def, Option.some.injEq, exists_eq_left', ← List.map_append]
    exact hwithin _

theorem not_versionStays {names : List Bytes} {range before : Range} (hsize : 0 < range.size)
    (hlow : range.addr + range.size < 2 ^ 32) (hmissing : ¬HasSection kernel memory (ascii "__TEXT") name)
    (h : getSection kernel memory (ascii "__TEXT") name before = some range) :
    ¬VersionStays kernel memory (name :: names) before := by
  rw [versionStays_step hlow h]
  intro hstays
  exact not_inSection hmissing _ (hstays.1 _ (scanReads_first hsize))

/-- A section that is there, from whatever stood in the variables before. -/
theorem IsMachO64.versionStays_has (h : IsMachO64 kernel memory) {names : List Bytes}
    (hnames : ∀ range, 0 < range.size → range.addr + range.size < 2 ^ 32 →
      (VersionStays kernel memory names range ↔ VersionWithin kernel memory names))
    (hsection : HasSection kernel memory (ascii "__TEXT") name) (before : Range) :
    VersionStays kernel memory (name :: names) before ↔ VersionWithin kernel memory (name :: names) := by
  obtain ⟨range, hlocated, hget⟩ := h.getSection_located hsection
  obtain ⟨layout, sect, hsect, haddr, hsize⟩ := hlocated.isSection
  have hreads : (∀ x ∈ scanReads memory range.addr range.size, InSection kernel memory (ascii "__TEXT") name x) ↔
      VersionFollowed memory range.addr range.size ∨ VersionAbsent memory range.addr range.size := by
    rw [← scanReads_below hlocated.low]
    refine forall₂_congr fun x hx => ?_
    rw [hlocated.inSection, and_iff_right (le_of_mem_scanReads hx)]
  have hnone : (findVersion memory range.size range.addr).1 = none ↔
      ∀ i < range.size, ¬holds memory (range.addr + i) darwinKernelVersion = true := by
    rcases findVersion_spec memory range.size range.addr with ⟨hnot, hresult, -⟩ | ⟨k, hk, hfound, -, hresult, -⟩
    · exact iff_of_true hresult hnot
    · exact iff_of_false (by rw [hresult]; exact Option.some_ne_none _) fun hnot => hnot k hk hfound
  rw [versionStays_step hlocated.low (hget before), hreads, hnone, hnames range hlocated.nonempty hlocated.low]
  constructor
  · rintro ⟨hscan, hrest⟩
    refine ⟨layout, sect, hsect, by rw [hsize]; exact hlocated.nonempty, ?_⟩
    rw [haddr, hsize]
    exact hscan.imp_right fun habsent => ⟨habsent, hrest habsent.1⟩
  · rintro ⟨layout', sect', hsect', -, hscan⟩
    obtain ⟨rfl, rfl⟩ := h.unique _ _ _ _ _ _ hsect hsect'
    rw [haddr, hsize] at hscan
    refine ⟨hscan.imp_right And.left, fun hnot => ?_⟩
    rcases hscan with ⟨i, hi, hholds, -⟩ | hscan
    · exact absurd hholds (hnot i (by omega))
    · exact hscan.2

/-- From a range that has been found, or has bytes at least. -/
theorem IsMachO64.versionStays_iff (h : IsMachO64 kernel memory) (names : List Bytes) (range : Range) (hsize : 0 < range.size)
    (hlow : range.addr + range.size < 2 ^ 32) :
    VersionStays kernel memory names range ↔ VersionWithin kernel memory names := by
  induction names generalizing range with
  | nil => exact iff_of_true ⟨_, rfl, fun access haccess => by cases haccess⟩ trivial
  | cons name names ih =>
      by_cases hsection : HasSection kernel memory (ascii "__TEXT") name
      · exact h.versionStays_has ih hsection range
      · refine iff_of_false (not_versionStays hsize hlow hsection (h.getSection_missing hsection range)) ?_
        rintro ⟨layout, sect, hsect, hpos, -⟩
        exact hsection ⟨layout, sect, hsect, hpos⟩

theorem IsMachO64.getKernelVersion_stays_iff (h : IsMachO64 kernel memory) :
    (∀ range, VersionStays kernel memory [ascii "__const", ascii "__cstring"] range) ↔
      VersionWithin kernel memory [ascii "__const", ascii "__cstring"] := by
  constructor
  · intro hall
    exact (h.versionStays_iff _ ⟨0, 1⟩ Nat.one_pos (by decide)).1 (hall _)
  · intro hwithin range
    obtain ⟨layout, sect, hsect, hsize, -⟩ := id hwithin
    exact (h.versionStays_has (h.versionStays_iff _) ⟨layout, sect, hsect, hsize⟩ range).2 hwithin

/-! ### The patches by the version -/

/-- The version has no pattern, or the image has the section. -/
def CpuIdWithin (kernel : KernelImage) (memory : Memory) (kernVersion : Option Bytes) : Prop :=
  ∀ version, kernVersion = some version →
    HasSection kernel memory (ascii "__TEXT") (ascii "__text") ∨
      asciiStrnCmp version (ascii "10.7.1") 6 < 0 ∧ asciiStrnCmp version (ascii "11.0.0") 6 < 0

theorem cpuId_stepsWithin_iff (cpuIdSing : Nat) (kernVersion : Option Bytes) :
    StepsWithin kernel memory none none (kernelPatchCpuId_64 true cpuIdSing kernVersion) ↔
      CpuIdWithin kernel memory kernVersion := by
  cases kernVersion with
  | none => simp [CpuIdWithin, kernelPatchCpuId_64, StepsWithin]
  | some version =>
      have hsteps (pattern replace : Bytes) :
          StepsWithin kernel memory none none [textText, .searchAndReplace pattern replace] ↔
            HasSection kernel memory (ascii "__TEXT") (ascii "__text") := by
        by_cases hsection : HasSection kernel memory (ascii "__TEXT") (ascii "__text") <;>
          simp [textText, StepsWithin, Has, hsection]
      simp only [CpuIdWithin, Option.some.injEq, forall_eq', kernelPatchCpuId_64, cpuIdSteps, if_true]
      split_ifs with hone htwo
      · rw [cpuId_1, hsteps, or_iff_left (by omega)]
      · rw [cpuId_2, hsteps, or_iff_left (by omega)]
      · exact iff_of_true (by simp [textText, StepsWithin]) (Or.inr (by omega))

/-- The version has no set, or the image has the section for its first patch and, for the patches of 15, 16 and 17 in
another section, has that one as well or has the first one shorter than the shortest of them. -/
def BootersWithin (kernel : KernelImage) (memory : Memory) (kernVersion : Option Bytes) : Prop :=
  ∀ version, kernVersion = some version →
    (∀ n, 10 ≤ n → n ≤ 17 → ¬startsWith version (decimal n) = true) ∨
      HasSection kernel memory (ascii "__KLD") (ascii "__text") ∧
        (HasSection kernel memory (ascii "__TEXT") (ascii "__text") ∨
          ∀ n, 15 ≤ n → n ≤ 17 → startsWith version (decimal n) = true →
            Shorter kernel memory (if n = 15 then 10 else 16) (some (ascii "__KLD", ascii "__text")))

/-- At most one of the numbers stands in front. -/
theorem exists_lead (kernVersion : Bytes) :
    ∃ lead, ∀ n, 10 ≤ n → n ≤ 17 → (startsWith kernVersion (decimal n) = true ↔ lead = n) := by
  by_cases hfound : ∃ n, 10 ≤ n ∧ n ≤ 17 ∧ startsWith kernVersion (decimal n) = true
  · obtain ⟨lead, hlow, hhigh, hlead⟩ := hfound
    refine ⟨lead, fun n hn hn' => ⟨fun h => ?_, fun h => h ▸ hlead⟩⟩
    rw [startsWith_iff (zero_notMem_decimal _)] at h hlead
    have hlength (m : Nat) (hm : 10 ≤ m) (hm' : m ≤ 17) : (decimal m).length = 2 := by
      interval_cases m <;> decide
    have hpre := List.prefix_of_prefix_length_le hlead h (by rw [hlength _ hlow hhigh, hlength _ hn hn'])
    exact decimal_injective (hpre.eq_of_length (by rw [hlength _ hlow hhigh, hlength _ hn hn']))
  · refine ⟨0, fun n hn hn' => ⟨fun h => absurd ⟨n, hn, hn', h⟩ hfound, fun h => by omega⟩⟩

theorem stepsWithin_kld (search replace : Bytes) :
    StepsWithin kernel memory none none [kldText, .searchAndReplace search replace] ↔
      HasSection kernel memory (ascii "__KLD") (ascii "__text") := by
  by_cases hkld : HasSection kernel memory (ascii "__KLD") (ascii "__text") <;> simp [kldText, StepsWithin, Has, hkld]

theorem stepsWithin_kld_text (search replace search' replace' : Bytes) :
    StepsWithin kernel memory none none
        [kldText, .searchAndReplace search replace, textText, .searchAndReplace search' replace'] ↔
      HasSection kernel memory (ascii "__KLD") (ascii "__text") ∧
        (HasSection kernel memory (ascii "__TEXT") (ascii "__text") ∨
          Shorter kernel memory search'.length (some (ascii "__KLD", ascii "__text"))) := by
  by_cases hkld : HasSection kernel memory (ascii "__KLD") (ascii "__text") <;>
    by_cases htext : HasSection kernel memory (ascii "__TEXT") (ascii "__text") <;>
    simp [kldText, textText, StepsWithin, Has, hkld, htext]

/-- The set of 15 has two patches in either section, the last one the shorter. -/
theorem stepsWithin_kernelDebug :
    StepsWithin kernel memory none none
        (kldText :: [kbeY, kbeECDebug, textText, kbeEntitlement, kbeECDebugEntitlement]) ↔
      HasSection kernel memory (ascii "__KLD") (ascii "__text") ∧
        (HasSection kernel memory (ascii "__TEXT") (ascii "__text") ∨
          Shorter kernel memory 10 (some (ascii "__KLD", ascii "__text"))) := by
  have hmono : Shorter kernel memory 10 (some (ascii "__KLD", ascii "__text")) →
      Shorter kernel memory 16 (some (ascii "__KLD", ascii "__text")) := fun h => h.mono (by decide)
  by_cases hkld : HasSection kernel memory (ascii "__KLD") (ascii "__text") <;>
    by_cases htext : HasSection kernel memory (ascii "__TEXT") (ascii "__text") <;>
    simp [kldText, textText, kbeY, kbeECDebug, kbeEntitlement, kbeECDebugEntitlement, StepsWithin, Has, hkld, htext]
  exact hmono

theorem booters_stepsWithin_iff (kernVersion : Option Bytes) :
    StepsWithin kernel memory none none (kernelBooterExtensionsPatch true kernVersion) ↔
      BootersWithin kernel memory kernVersion := by
  cases kernVersion with
  | none => simp [BootersWithin, kernelBooterExtensionsPatch, StepsWithin]
  | some version =>
      obtain ⟨lead, hlead⟩ := exists_lead version
      have hnone : (∀ n, 10 ≤ n → n ≤ 17 → ¬startsWith version (decimal n) = true) ↔ ¬(10 ≤ lead ∧ lead ≤ 17) := by
        constructor
        · exact fun h hrange => h lead hrange.1 hrange.2 ((hlead lead hrange.1 hrange.2).2 rfl)
        · exact fun h n hn hn' hstarts => h ((hlead n hn hn').1 hstarts ▸ ⟨hn, hn'⟩)
      have hlate : (∀ n, 15 ≤ n → n ≤ 17 → startsWith version (decimal n) = true →
            Shorter kernel memory (if n = 15 then 10 else 16) (some (ascii "__KLD", ascii "__text"))) ↔
          (15 ≤ lead → lead ≤ 17 →
            Shorter kernel memory (if lead = 15 then 10 else 16) (some (ascii "__KLD", ascii "__text"))) := by
        constructor
        · exact fun h hn hn' => h lead hn hn' ((hlead lead (by omega) hn').2 rfl)
        · intro h n hn hn' hstarts
          obtain rfl := (hlead n (by omega) hn').1 hstarts
          exact h hn hn'
      simp only [BootersWithin, Option.some.injEq, forall_eq', kernelBooterExtensionsPatch,
        booterExtensionsSteps_leading hlead, hnone, hlate]
      by_cases h1080 : startsWith version (ascii "10.8.0") = true
      · have h10 : lead = 10 := by
          have hpre := (startsWith_iff (by decide)).1 h1080
          refine (hlead 10 le_rfl (by decide)).1 ((startsWith_iff (by decide)).2 ?_)
          exact List.IsPrefix.trans (by decide) hpre
        rw [if_pos h1080, kbeSL_1080_X64, stepsWithin_kld]
        simp [h10]
      · rw [if_neg h1080]
        by_cases hrange : 10 ≤ lead ∧ lead ≤ 17
        · obtain ⟨hlow, hhigh⟩ := hrange
          clear hlead hnone hlate
          interval_cases lead
          · simp [leadingSet, kbeSL_X64, stepsWithin_kld]
          · simp [leadingSet, kbeLion_X64, stepsWithin_kld]
          · simp [leadingSet, kbeML, stepsWithin_kld]
          · simp [leadingSet, kbeML, stepsWithin_kld]
          · simp [leadingSet, kbeY, stepsWithin_kld]
          · simp [leadingSet, stepsWithin_kernelDebug]
          · simp [leadingSet, kbeY, kbeSDP2Entitlement, stepsWithin_kld_text]
          · simp [leadingSet, kbeY, kbeHSEntitlement, stepsWithin_kld_text]
        · have hempty : leadingSet lead = [] := by
            by_contra hset
            exact hrange (leadingSet_ne_nil.1 hset)
          rw [hempty]
          exact iff_of_true (by simp [kldText, StepsWithin]) (Or.inl hrange)

/-! ### The routines -/

/-- Of a 64-bit Mach-O kernel, whatever the variables for address and size held: when the search for the version and the
two patches read and write nothing but the section of the name looked up last. -/
theorem sectionPatches_iff (h : IsMachO64 kernel memory) (cpuIdSing : Nat) (kernVersion : Option Bytes) :
    ((∀ range, ∃ out, getKernelVersion kernel memory range = some out ∧
        ∀ access ∈ out.2, access.Within kernel memory) ↔
      VersionWithin kernel memory [ascii "__const", ascii "__cstring"]) ∧
    ((∀ range, ∃ out, patchSteps kernel ⟨memory, range, none⟩ (kernelPatchCpuId_64 true cpuIdSing kernVersion) = some out ∧
        ∀ access ∈ out.2, access.Within kernel memory) ↔
      CpuIdWithin kernel memory kernVersion) ∧
    ((∀ range, ∃ out, patchSteps kernel ⟨memory, range, none⟩ (kernelBooterExtensionsPatch true kernVersion) = some out ∧
        ∀ access ∈ out.2, access.Within kernel memory) ↔
      BootersWithin kernel memory kernVersion) := by
  rw [← cpuId_stepsWithin_iff cpuIdSing, ← booters_stepsWithin_iff]
  refine ⟨h.getKernelVersion_stays_iff, h.stays_unset_iff ?_ none id, h.stays_unset_iff ?_ none id⟩
  · cases kernVersion with
    | none => simp [kernelPatchCpuId_64]
    | some kernVersion => exact cpuIdSteps_wellSized true cpuIdSing kernVersion
  · cases kernVersion with
    | none => simp [kernelBooterExtensionsPatch]
    | some kernVersion => exact booterExtensionsSteps_wellSized true kernVersion

/-! A kernel at 2 MB with the section `__TEXT,__const`, 64 bytes of zeros at 3 MB, and no other. -/

def constOnlyHeader : Bytes :=
  [0xCF, 0xFA, 0xED, 0xFE] ++ List.replicate 12 0 ++ [1, 0, 0, 0] ++ [152, 0, 0, 0] ++ List.replicate 8 0 ++
    ([0x19, 0, 0, 0] ++ [152, 0, 0, 0] ++ ascii "__TEXT" ++ List.replicate 10 0 ++ List.replicate 40 0 ++ [1, 0, 0, 0] ++
      List.replicate 4 0) ++
    (ascii "__const" ++ List.replicate 9 0 ++ ascii "__TEXT" ++ List.replicate 10 0 ++ [0, 0, 0x30, 0, 0, 0, 0, 0] ++
      [64, 0, 0, 0, 0, 0, 0, 0] ++ List.replicate 32 0)

def constOnly : KernelImage where
  data := 0x200000
  relocBase := 0
  is64Bit := true

def constOnlyMemory : Memory := fun x => if x < 0x200000 then 0 else constOnlyHeader.getD (x - 0x200000) 0

theorem constOnly_layout {layout : SegmentLayout}
    (h : segmentLayout (wordAt constOnlyMemory 4 (commandAt constOnly constOnlyMemory 0)) = some layout) :
    layout = ⟨72, 80, 8⟩ := by
  have hcmd : wordAt constOnlyMemory 4 (commandAt constOnly constOnlyMemory 0) = 0x19 := by decide +kernel
  rw [hcmd] at h
  exact (Option.some.inj h).symm

theorem constOnly_isSection {layout : SegmentLayout} {sect : Nat}
    (h : IsSection constOnly constOnlyMemory segment name layout sect) :
    layout = ⟨72, 80, 8⟩ ∧ sect = 0x200068 ∧ isNamed constOnlyMemory sect name = true := by
  obtain ⟨i, hi, hlayout, -, j, hj, rfl, hname, -⟩ := h
  have hcount : commandCount constOnly constOnlyMemory = 1 := by decide +kernel
  obtain rfl : i = 0 := by omega
  obtain rfl := constOnly_layout hlayout
  have hsections : wordAt constOnlyMemory 4 (commandAt constOnly constOnlyMemory 0 + 72 - 8) = 1 := by decide +kernel
  obtain rfl : j = 0 := Nat.lt_one_iff.1 (hsections ▸ hj)
  exact ⟨rfl, rfl, hname⟩

/-- Behind the header all bytes are zero. -/
theorem constOnlyMemory_high {x : Nat} (hx : 0x300000 ≤ x) : constOnlyMemory x = 0 := by
  have hlength : constOnlyHeader.length = 184 := by decide +kernel
  rw [constOnlyMemory, if_neg (by omega), List.getD_eq_getElem?_getD, List.getElem?_eq_none (by omega), Option.getD_none]

theorem constOnly_isMachO64 : IsMachO64 constOnly constOnlyMemory where
  is64 := rfl
  magic := by decide +kernel
  commandsFit := by decide +kernel
  commandSize := by decide +kernel
  segmentSize := by
    have hcount : commandCount constOnly constOnlyMemory = 1 := by decide +kernel
    intro i hi layout hlayout
    obtain rfl : i = 0 := by omega
    obtain rfl := constOnly_layout hlayout
    decide +kernel
  unique := by
    intro segment name layout layout' sect sect' h h'
    obtain ⟨rfl, rfl, -⟩ := constOnly_isSection h
    obtain ⟨rfl, rfl, -⟩ := constOnly_isSection h'
    exact ⟨rfl, rfl⟩
  loadedLow := by
    intro segment name layout sect h
    obtain ⟨rfl, rfl, -⟩ := constOnly_isSection h
    decide +kernel
  apart := by
    intro segment name layout sect h
    obtain ⟨rfl, rfl, -⟩ := constOnly_isSection h
    decide +kernel

theorem constOnly_patches :
    ((∀ range, ∃ out, getKernelVersion constOnly constOnlyMemory range = some out ∧
        ∀ access ∈ out.2, access.Within constOnly constOnlyMemory) ↔
      VersionWithin constOnly constOnlyMemory [ascii "__const", ascii "__cstring"]) ∧
    ((∀ range, ∃ out, patchSteps constOnly ⟨constOnlyMemory, range, none⟩
        (kernelPatchCpuId_64 true 0 (some (ascii "11.0.0"))) = some out ∧
        ∀ access ∈ out.2, access.Within constOnly constOnlyMemory) ↔
      CpuIdWithin constOnly constOnlyMemory (some (ascii "11.0.0"))) ∧
    ((∀ range, ∃ out, patchSteps constOnly ⟨constOnlyMemory, range, none⟩
        (kernelBooterExtensionsPatch true (some (ascii "11.0.0"))) = some out ∧
        ∀ access ∈ out.2, access.Within constOnly constOnlyMemory) ↔
      BootersWithin constOnly constOnlyMemory (some (ascii "11.0.0"))) :=
  sectionPatches_iff constOnly_isMachO64 0 (some (ascii "11.0.0"))

/-- Without the section `__TEXT,__cstring` the search for the version goes on in another one, and without `__TEXT,__text`
and `__KLD,__text` the patches go to what stood in the variables. -/
theorem constOnly_leaves :
    IsMachO64 constOnly constOnlyMemory ∧
      (¬∀ range, ∃ out, getKernelVersion constOnly constOnlyMemory range = some out ∧
        ∀ access ∈ out.2, access.Within constOnly constOnlyMemory) ∧
      (¬∀ range, ∃ out, patchSteps constOnly ⟨constOnlyMemory, range, none⟩
        (kernelPatchCpuId_64 true 0 (some (ascii "11.0.0"))) = some out ∧
        ∀ access ∈ out.2, access.Within constOnly constOnlyMemory) ∧
      ¬∀ range, ∃ out, patchSteps constOnly ⟨constOnlyMemory, range, none⟩
        (kernelBooterExtensionsPatch true (some (ascii "11.0.0"))) = some out ∧
        ∀ access ∈ out.2, access.Within constOnly constOnlyMemory := by
  have hmissing (segment name : Bytes) (hname : isNamed constOnlyMemory 0x200068 name = false) :
      ¬HasSection constOnly constOnlyMemory segment name := by
    rintro ⟨layout, sect, hsect, -⟩
    obtain ⟨-, rfl, hnamed⟩ := constOnly_isSection hsect
    rw [hname] at hnamed
    cases hnamed
  refine ⟨constOnly_isMachO64, ?_, ?_, ?_⟩
  · intro hall
    obtain ⟨layout, sect, hsect, -, ⟨i, hi, hholds, -⟩ | ⟨-, layout', sect', hsect', hsize', -⟩⟩ :=
      constOnly_isMachO64.getKernelVersion_stays_iff.1 hall
    · obtain ⟨rfl, rfl, -⟩ := constOnly_isSection hsect
      have haddr : sectAddr constOnly constOnlyMemory ⟨72, 80, 8⟩ 0x200068 = 0x300000 := by decide +kernel
      have hfirst : constOnlyMemory (0x300000 + i + 0) = 68 := holds_getD (haddr ▸ hholds) (by decide)
      rw [constOnlyMemory_high (by omega)] at hfirst
      exact absurd hfirst (by decide)
    · exact hmissing _ _ (by decide +kernel) ⟨layout', sect', hsect', hsize'⟩
  · intro hall
    have h := (cpuId_stepsWithin_iff 0 _).1 ((constOnly_isMachO64.stays_unset_iff
      (cpuIdSteps_wellSized true 0 (ascii "11.0.0")) none id).1 hall) _ rfl
    rcases h with h | h
    · exact hmissing _ _ (by decide +kernel) h
    · exact absurd h.2 (by decide +kernel)
  · intro hall
    have h := (booters_stepsWithin_iff _).1 ((constOnly_isMachO64.stays_unset_iff
      (booterExtensionsSteps_wellSized true (ascii "11.0.0")) none id).1 hall) _ rfl
    rcases h with h | h
    · exact h 11 (by decide) (by decide) (by decide +kernel)
    · exact hmissing _ _ (by decide +kernel) h.1

end BareBoot.Kernel
