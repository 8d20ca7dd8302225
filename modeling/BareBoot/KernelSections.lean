import BareBoot.KernelPatcher

/-! The sections of a 64-bit Mach-O kernel and what `GetSection` makes of them: of a section that is there and not empty
the range, whatever stood in the variables before, and of any other nothing. -/

namespace BareBoot.Kernel

open Plist Kext

section Image

variable (kernel : KernelImage) (memory : Memory)

def commandCount : Nat := wordAt memory 4 (kernel.data + 16)

/-- Where the load commands begin, behind the header and one behind the other. -/
def commandOffset : Nat → Nat
  | 0 => 32
  | i + 1 => commandOffset i + wordAt memory 4 (kernel.data + commandOffset i + 4)

def commandAt (i : Nat) : Nat := kernel.data + commandOffset kernel memory i

/-- A section of that name in the `i`-th load command. -/
def IsSectionOf (i : Nat) (segment name : Bytes) (layout : SegmentLayout) (sect : Nat) : Prop :=
  segmentLayout (wordAt memory 4 (commandAt kernel memory i)) = some layout ∧
    isNamed memory (commandAt kernel memory i + 8) segment = true ∧
    ∃ j < wordAt memory 4 (commandAt kernel memory i + layout.segmentSize - 8),
      sect = commandAt kernel memory i + (layout.segmentSize + layout.sectionSize * j) ∧
        isNamed memory sect name = true ∧ isNamed memory (sect + 16) segment = true

def IsSection (segment name : Bytes) (layout : SegmentLayout) (sect : Nat) : Prop :=
  ∃ i < commandCount kernel memory, IsSectionOf kernel memory i segment name layout sect

/-- The image has a section of that name, and it is not empty. -/
def HasSection (segment name : Bytes) : Prop :=
  ∃ layout sect, IsSection kernel memory segment name layout sect ∧ 0 < sectSize memory layout sect

def InSection (segment name : Bytes) (x : Nat) : Prop :=
  ∃ layout sect, IsSection kernel memory segment name layout sect ∧ sectAddr kernel memory layout sect ≤ x ∧
    x < sectAddr kernel memory layout sect + sectSize memory layout sect

/-- A 64-bit Mach-O kernel, loaded below 4 GB: its load commands lie behind the header, a segment command has the size of
its sections, a section has a name of its own and lies apart from header and load commands. -/
structure IsMachO64 : Prop where
  is64 : kernel.is64Bit = true
  magic : wordAt memory 4 kernel.data = 0xfeedfacf
  commandsFit : kernel.data + commandOffset kernel memory (commandCount kernel memory) < 2 ^ 32
  commandSize : ∀ i < commandCount kernel memory, 8 ≤ wordAt memory 4 (commandAt kernel memory i + 4)
  segmentSize : ∀ i < commandCount kernel memory, ∀ layout,
    segmentLayout (wordAt memory 4 (commandAt kernel memory i)) = some layout →
      wordAt memory 4 (commandAt kernel memory i + 4) = layout.segmentSize +
        layout.sectionSize * wordAt memory 4 (commandAt kernel memory i + layout.segmentSize - 8)
  unique : ∀ segment name layout layout' sect sect', IsSection kernel memory segment name layout sect →
    IsSection kernel memory segment name layout' sect' → layout = layout' ∧ sect = sect'
  loadedLow : ∀ segment name layout sect, IsSection kernel memory segment name layout sect →
    sectAddr kernel memory layout sect + sectSize memory layout sect < 2 ^ 32
  apart : ∀ segment name layout sect, IsSection kernel memory segment name layout sect →
    sectAddr kernel memory layout sect + sectSize memory layout sect ≤ kernel.data ∨
      kernel.data + commandOffset kernel memory (commandCount kernel memory) ≤ sectAddr kernel memory layout sect

end Image

variable {kernel : KernelImage} {memory memory' : Memory} {segment name : Bytes} {layout : SegmentLayout}

theorem segmentLayout_eq {cmd : Nat} (h : segmentLayout cmd = some layout) : layout = ⟨72, 80, 8⟩ ∨ layout = ⟨56, 68, 4⟩ := by
  rw [segmentLayout] at h
  split_ifs at h
  · exact Or.inl (Option.some.inj h).symm
  · exact Or.inr (Option.some.inj h).symm

theorem segmentLayout_bounds {cmd : Nat} (h : segmentLayout cmd = some layout) :
    32 ≤ layout.segmentSize ∧ 32 + 2 * layout.addrWidth ≤ layout.sectionSize ∧ 0 < layout.sectionSize := by
  rcases segmentLayout_eq h with rfl | rfl <;> decide

theorem commandOffset_mono (kernel : KernelImage) (memory : Memory) {i j : Nat} (h : i ≤ j) : commandOffset kernel memory i ≤ commandOffset kernel memory j := by
  induction j with
  | zero => rw [Nat.le_zero.1 h]
  | succ j ih =>
      rcases Nat.lt_or_eq_of_le h with h | rfl
      · exact (ih (Nat.lt_succ_iff.1 h)).trans (Nat.le_add_right _ _)
      · exact le_rfl

/-- The first section of that name, if there is one. -/
theorem sectionLoop_spec (segment name : Bytes) {segCmd count : Nat} (hwidth : 0 < layout.sectionSize)
    (hsize : wordAt memory 4 (segCmd + 4) = layout.segmentSize + layout.sectionSize * count)
    (hfit : layout.segmentSize + layout.sectionSize * count < 2 ^ 32) (rounds j : Nat) (hj : j ≤ count)
    (hrounds : count < rounds + j) :
    ∃ found, sectionLoop memory layout segCmd segment name rounds (layout.segmentSize + layout.sectionSize * j) =
        some found ∧
      match found with
      | none => ∀ k, j ≤ k → k < count → ¬(isNamed memory (segCmd + (layout.segmentSize + layout.sectionSize * k)) name = true ∧
          isNamed memory (segCmd + (layout.segmentSize + layout.sectionSize * k) + 16) segment = true)
      | some sect => ∃ k < count, sect = segCmd + (layout.segmentSize + layout.sectionSize * k) ∧
          isNamed memory sect name = true ∧ isNamed memory (sect + 16) segment = true := by
  induction rounds generalizing j with
  | zero => omega
  | succ rounds ih =>
      rw [sectionLoop, hsize]
      rcases Nat.lt_or_eq_of_le hj with hlt | rfl
      · have hmul : layout.sectionSize * (j + 1) ≤ layout.sectionSize * count := Nat.mul_le_mul_left _ hlt
        have hnext : layout.sectionSize * (j + 1) = layout.sectionSize * j + layout.sectionSize := Nat.mul_succ _ _
        rw [if_pos (by omega)]
        simp only [Bool.and_eq_true]
        split_ifs with hmatch
        · exact ⟨_, rfl, j, hlt, rfl, hmatch⟩
        · have hindex : (layout.segmentSize + layout.sectionSize * j + layout.sectionSize) % 2 ^ 32 =
              layout.segmentSize + layout.sectionSize * (j + 1) := by
            rw [Nat.mod_eq_of_lt (by omega), hnext, Nat.add_assoc]
          rw [hindex]
          obtain ⟨found, hrun, hfound⟩ := ih (j + 1) hlt (by omega)
          refine ⟨found, hrun, ?_⟩
          cases found with
          | some sect => exact hfound
          | none =>
              intro k hk hcount
              rcases Nat.lt_or_eq_of_le hk with hk | rfl
              · exact hfound k hk hcount
              · exact hmatch
      · rw [if_neg (Nat.lt_irrefl _)]
        exact ⟨none, rfl, fun k hk hcount => absurd hcount (by omega)⟩

/-- The range of a section. -/
def rangeOf (kernel : KernelImage) (memory : Memory) (layout : SegmentLayout) (sect : Nat) : Range :=
  ⟨sectAddr kernel memory layout sect, sectSize memory layout sect % 2 ^ 32⟩

/-- What the range is after some load commands: of a section in one of them, or as before for want of one. -/
def Settled (kernel : KernelImage) (memory : Memory) (segment name : Bytes) (among : Nat → Prop) (before after : Range) :
    Prop :=
  (after = before ∧ ∀ i, among i → ∀ layout sect, IsSectionOf kernel memory i segment name layout sect →
      sectSize memory layout sect = 0) ∨
    ∃ i layout sect, among i ∧ IsSectionOf kernel memory i segment name layout sect ∧ 0 < sectSize memory layout sect ∧
      after = rangeOf kernel memory layout sect

theorem IsMachO64.command_lt (h : IsMachO64 kernel memory) {i : Nat} (hi : i < commandCount kernel memory) :
    kernel.data + (commandOffset kernel memory i + wordAt memory 4 (commandAt kernel memory i + 4)) < 2 ^ 32 := by
  have hmono := commandOffset_mono kernel memory (Nat.succ_le_of_lt hi)
  exact lt_of_le_of_lt (Nat.add_le_add_left hmono _) h.commandsFit

theorem IsMachO64.getSectionStep_settled (h : IsMachO64 kernel memory) (segment name : Bytes) {i : Nat} (hi : i < commandCount kernel memory)
    (before : Range) :
    ∃ after, getSectionStep kernel memory segment name (commandAt kernel memory i) before = some after ∧
      Settled kernel memory segment name (· = i) before after := by
  rw [getSectionStep]
  split
  · rename_i hlayout
    refine ⟨before, rfl, Or.inl ⟨rfl, ?_⟩⟩
    rintro _ rfl layout sect hsect
    rw [hsect.1] at hlayout
    cases hlayout
  · rename_i layout hlayout
    split_ifs with hsegment
    · have hbounds := segmentLayout_bounds hlayout
      have hsize := h.segmentSize i hi layout hlayout
      have hlt := h.command_lt hi
      obtain ⟨found, hrun, hfound⟩ := sectionLoop_spec segment name hbounds.2.2 hsize
        (by omega) (2 ^ 32) 0 (Nat.zero_le _) (by have := wordAt_lt memory 4 (commandAt kernel memory i + layout.segmentSize - 8); omega)
      rw [Nat.mul_zero, Nat.add_zero] at hrun
      rw [hrun]
      cases found with
      | none =>
          refine ⟨before, rfl, Or.inl ⟨rfl, ?_⟩⟩
          rintro _ rfl layout' sect ⟨hlayout', -, k, hk, rfl, hname, hsegname⟩
          obtain rfl := Option.some.inj (hlayout.symm.trans hlayout')
          exact absurd ⟨hname, hsegname⟩ (hfound k (Nat.zero_le k) hk)
      | some sect =>
          obtain ⟨k, hk, hsect, hname, hsegname⟩ := hfound
          have hsectionOf : IsSectionOf kernel memory i segment name layout sect :=
            ⟨hlayout, hsegment, k, hk, hsect, hname, hsegname⟩
          by_cases hempty : 0 < sectSize memory layout sect
          · refine ⟨rangeOf kernel memory layout sect, ?_, Or.inr ⟨i, layout, sect, rfl, hsectionOf, hempty, rfl⟩⟩
            simp only [Option.map_some, if_pos hempty, rangeOf]
          · refine ⟨before, by simp only [Option.map_some, if_neg hempty], Or.inl ⟨rfl, ?_⟩⟩
            rintro _ rfl layout' sect' hsect'
            obtain ⟨rfl, rfl⟩ := h.unique _ _ _ _ _ _ ⟨_, hi, hsectionOf⟩ ⟨_, hi, hsect'⟩
            omega
    · refine ⟨before, rfl, Or.inl ⟨rfl, ?_⟩⟩
      rintro _ rfl layout sect hsect
      exact absurd hsect.2.1 hsegment

theorem Settled.trans {before between after : Range} {among among' : Nat → Prop}
    (h : Settled kernel memory segment name among before between)
    (h' : Settled kernel memory segment name among' between after) :
    Settled kernel memory segment name (fun i => among i ∨ among' i) before after := by
  rcases h' with ⟨rfl, hnone'⟩ | ⟨i, layout, sect, hi, hsect⟩
  · rcases h with ⟨rfl, hnone⟩ | ⟨i, layout, sect, hi, hsect⟩
    · exact Or.inl ⟨rfl, fun i hi => hi.elim (hnone i) (hnone' i)⟩
    · exact Or.inr ⟨i, layout, sect, Or.inl hi, hsect⟩
  · exact Or.inr ⟨i, layout, sect, Or.inr hi, hsect⟩

theorem IsMachO64.commandLoop_settled (h : IsMachO64 kernel memory) (segment name : Bytes) (ncmds i : Nat)
    (hi : i + ncmds = commandCount kernel memory) (before : Range) :
    ∃ after, commandLoop kernel memory segment name ncmds (commandOffset kernel memory i) before = some after ∧
      Settled kernel memory segment name (fun k => i ≤ k ∧ k < i + ncmds) before after := by
  induction ncmds generalizing i before with
  | zero => exact ⟨before, rfl, Or.inl ⟨rfl, fun k hk => absurd hk.2 (by omega)⟩⟩
  | succ ncmds ih =>
      have hlt := h.command_lt (show i < commandCount kernel memory by omega)
      obtain ⟨between, hstep, hbetween⟩ := h.getSectionStep_settled segment name
        (show i < commandCount kernel memory by omega) before
      obtain ⟨after, hrest, hafter⟩ := ih (i + 1) (by omega) between
      have hindex : (commandOffset kernel memory i + wordAt memory 4 (kernel.data + commandOffset kernel memory i + 4)) %
          2 ^ 32 = commandOffset kernel memory (i + 1) := Nat.mod_eq_of_lt (by rw [commandAt] at hlt; omega)
      refine ⟨after, ?_, ?_⟩
      · rw [commandLoop, ← commandAt, hstep, Option.bind_eq_bind, Option.bind_some, commandAt, hindex]
        exact hrest
      · convert hbetween.trans hafter using 2 with k
        omega

/-- Of a section that is not empty, the range; otherwise what was there. -/
theorem IsMachO64.getSection_eq (h : IsMachO64 kernel memory) (segment name : Bytes) (before : Range) :
    ∃ after, getSection kernel memory segment name before = some after ∧
      ((after = before ∧ ¬HasSection kernel memory segment name) ∨
        ∃ layout sect, IsSection kernel memory segment name layout sect ∧ 0 < sectSize memory layout sect ∧
          after = ⟨sectAddr kernel memory layout sect, sectSize memory layout sect⟩) := by
  obtain ⟨after, hrun, hsettled⟩ := h.commandLoop_settled segment name
    (commandCount kernel memory) 0 (Nat.zero_add _) before
  refine ⟨after, ?_, ?_⟩
  · rw [getSection, h.is64, if_pos rfl]
    exact hrun
  · rcases hsettled with ⟨rfl, hnone⟩ | ⟨i, layout, sect, hi, hsect, hsize, rfl⟩
    · refine Or.inl ⟨rfl, ?_⟩
      rintro ⟨layout, sect, ⟨i, hi, hsect⟩, hsize⟩
      have := hnone i (by omega) layout sect hsect
      omega
    · have hsection : IsSection kernel memory segment name layout sect := ⟨i, by omega, hsect⟩
      have hlow := h.loadedLow _ _ _ _ hsection
      refine Or.inr ⟨layout, sect, hsection, hsize, ?_⟩
      rw [rangeOf, Nat.mod_eq_of_lt (by omega)]

theorem not_inSection (h : ¬HasSection kernel memory segment name) (x : Nat) : ¬InSection kernel memory segment name x := by
  rintro ⟨layout, sect, hsect, hle, hlt⟩
  exact h ⟨layout, sect, hsect, by omega⟩

theorem IsMachO64.getSection_missing (h : IsMachO64 kernel memory) (hmissing : ¬HasSection kernel memory segment name)
    (before : Range) : getSection kernel memory segment name before = some before := by
  obtain ⟨after, hrun, ⟨rfl, -⟩ | ⟨layout, sect, hsect, hsize, -⟩⟩ := h.getSection_eq segment name before
  · exact hrun
  · exact absurd ⟨layout, sect, hsect, hsize⟩ hmissing

/-- The range that stands for a section. -/
structure Located (kernel : KernelImage) (memory : Memory) (segment name : Bytes) (range : Range) : Prop where
  nonempty : 0 < range.size
  isSection : ∃ layout sect, IsSection kernel memory segment name layout sect ∧
    sectAddr kernel memory layout sect = range.addr ∧ sectSize memory layout sect = range.size
  low : range.addr + range.size < 2 ^ 32
  apart : range.addr + range.size ≤ kernel.data ∨
    kernel.data + commandOffset kernel memory (commandCount kernel memory) ≤ range.addr
  inSection : ∀ x, InSection kernel memory segment name x ↔ range.addr ≤ x ∧ x < range.addr + range.size

theorem IsMachO64.getSection_located (h : IsMachO64 kernel memory) (hsection : HasSection kernel memory segment name) :
    ∃ range, Located kernel memory segment name range ∧
      ∀ before, getSection kernel memory segment name before = some range := by
  obtain ⟨layout, sect, hsect, hsize⟩ := hsection
  refine ⟨⟨sectAddr kernel memory layout sect, sectSize memory layout sect⟩, ⟨hsize, ⟨layout, sect, hsect, rfl, rfl⟩,
    h.loadedLow _ _ _ _ hsect, h.apart _ _ _ _ hsect, fun x => ?_⟩, fun before => ?_⟩
  · constructor
    · rintro ⟨layout', sect', hsect', hx⟩
      obtain ⟨rfl, rfl⟩ := h.unique _ _ _ _ _ _ hsect hsect'
      exact hx
    · exact fun hx => ⟨layout, sect, hsect, hx⟩
  · obtain ⟨after, hrun, ⟨-, hmissing⟩ | ⟨layout', sect', hsect', -, rfl⟩⟩ :=
      h.getSection_eq segment name before
    · exact absurd ⟨layout, sect, hsect, hsize⟩ hmissing
    · obtain ⟨rfl, rfl⟩ := h.unique _ _ _ _ _ _ hsect hsect'
      exact hrun

/-! ### Memory that differs behind the load commands -/

/-- Header and load commands are the same. -/
def HeaderAlike (kernel : KernelImage) (memory memory' : Memory) : Prop :=
  ∀ x, kernel.data ≤ x → x < kernel.data + commandOffset kernel memory (commandCount kernel memory) → memory' x = memory x

theorem HeaderAlike.word (h : HeaderAlike kernel memory memory') {a width : Nat} (hlow : kernel.data ≤ a)
    (hhigh : a + width ≤ kernel.data + commandOffset kernel memory (commandCount kernel memory)) :
    wordAt memory' width a = wordAt memory width a :=
  wordAt_congr fun i hi => h (a + i) (by omega) (by omega)

theorem HeaderAlike.isNamed (h : HeaderAlike kernel memory memory') {a : Nat} {text : Bytes} (hlow : kernel.data ≤ a)
    (hhigh : a + text.length < kernel.data + commandOffset kernel memory (commandCount kernel memory)) :
    isNamed memory' a text = isNamed memory a text := by
  apply holds_congr
  intro i hi
  rw [List.length_append, List.length_singleton] at hi
  exact h (a + i) (by omega) (by omega)

theorem sectionLoop_alike (h : HeaderAlike kernel memory memory') {segCmd count : Nat} (hlow : kernel.data ≤ segCmd)
    (hwidth : 32 ≤ layout.sectionSize) (hsegment : 32 ≤ layout.segmentSize) (hname : name.length < 16)
    (hsegname : segment.length < 16) (hsize : wordAt memory 4 (segCmd + 4) = layout.segmentSize + layout.sectionSize * count)
    (hhigh : segCmd + (layout.segmentSize + layout.sectionSize * count) ≤
      kernel.data + commandOffset kernel memory (commandCount kernel memory))
    (hfit : layout.segmentSize + layout.sectionSize * count < 2 ^ 32) (rounds j : Nat) (hj : j ≤ count) :
    sectionLoop memory' layout segCmd segment name rounds (layout.segmentSize + layout.sectionSize * j) =
      sectionLoop memory layout segCmd segment name rounds (layout.segmentSize + layout.sectionSize * j) := by
  induction rounds generalizing j with
  | zero => rfl
  | succ rounds ih =>
      have hsize' : wordAt memory' 4 (segCmd + 4) = wordAt memory 4 (segCmd + 4) := h.word (by omega) (by omega)
      rw [sectionLoop, sectionLoop, hsize', hsize]
      rcases Nat.lt_or_eq_of_le hj with hlt | rfl
      · have hmul : layout.sectionSize * (j + 1) ≤ layout.sectionSize * count := Nat.mul_le_mul_left _ hlt
        have hnext : layout.sectionSize * (j + 1) = layout.sectionSize * j + layout.sectionSize := Nat.mul_succ _ _
        have hindex : (layout.segmentSize + layout.sectionSize * j + layout.sectionSize) % 2 ^ 32 =
            layout.segmentSize + layout.sectionSize * (j + 1) := by
          rw [Nat.mod_eq_of_lt (by omega), hnext, Nat.add_assoc]
        simp only [hindex, ih (j + 1) hlt]
        rw [h.isNamed (by omega) (by omega), h.isNamed (by omega) (by omega)]
      · rw [if_neg (Nat.lt_irrefl _), if_neg (Nat.lt_irrefl _)]

theorem IsMachO64.getSectionStep_alike (h : IsMachO64 kernel memory) (halike : HeaderAlike kernel memory memory')
    (hname : name.length < 16) (hsegname : segment.length < 16) {i : Nat} (hi : i < commandCount kernel memory)
    (before : Range) :
    getSectionStep kernel memory' segment name (commandAt kernel memory i) before =
      getSectionStep kernel memory segment name (commandAt kernel memory i) before := by
  have hend : commandAt kernel memory i + wordAt memory 4 (commandAt kernel memory i + 4) ≤
      kernel.data + commandOffset kernel memory (commandCount kernel memory) := by
    have hmono := commandOffset_mono kernel memory (Nat.succ_le_of_lt hi)
    rw [commandAt, Nat.add_assoc]
    exact Nat.add_le_add_left hmono _
  have hlow : kernel.data ≤ commandAt kernel memory i := Nat.le_add_right _ _
  have hcommand := h.commandSize i hi
  rw [getSectionStep, getSectionStep, halike.word hlow (by omega)]
  rcases hlayout : segmentLayout (wordAt memory 4 (commandAt kernel memory i)) with _ | layout
  · rfl
  · obtain ⟨hsegment, hsection, hwidth⟩ := segmentLayout_bounds hlayout
    have hsize := h.segmentSize i hi layout hlayout
    have hlt := h.command_lt hi
    rw [hsize] at hend hlt
    have hloop := sectionLoop_alike halike hlow (by omega) hsegment hname hsegname hsize hend (by omega) (2 ^ 32) 0
      (Nat.zero_le _)
    obtain ⟨found, hrun, hfound⟩ := sectionLoop_spec segment name hwidth hsize (by omega) (2 ^ 32) 0
      (Nat.zero_le _) (by have := wordAt_lt memory 4 (commandAt kernel memory i + layout.segmentSize - 8); omega)
    rw [Nat.mul_zero, Nat.add_zero] at hloop hrun
    simp only [halike.isNamed (show kernel.data ≤ commandAt kernel memory i + 8 by omega)
      (show commandAt kernel memory i + 8 + segment.length < _ by omega), hloop, hrun]
    cases found with
    | none => rfl
    | some sect =>
        obtain ⟨k, hk, rfl, -, -⟩ := hfound
        have hmul : layout.sectionSize * (k + 1) ≤ layout.sectionSize *
          wordAt memory 4 (commandAt kernel memory i + layout.segmentSize - 8) := Nat.mul_le_mul_left _ hk
        have hnext : layout.sectionSize * (k + 1) = layout.sectionSize * k + layout.sectionSize := Nat.mul_succ _ _
        generalize hsect : commandAt kernel memory i + (layout.segmentSize + layout.sectionSize * k) = sect
        have hsectSize : sectSize memory' layout sect = sectSize memory layout sect := halike.word (by omega) (by omega)
        have hsectAddr : sectAddr kernel memory' layout sect = sectAddr kernel memory layout sect := by
          simp only [sectAddr, halike.word (show kernel.data ≤ sect + 32 by omega)
            (show sect + 32 + layout.addrWidth ≤ _ by omega)]
        simp only [Option.map_some, hsectSize, hsectAddr]

theorem IsMachO64.commandLoop_alike (h : IsMachO64 kernel memory) (halike : HeaderAlike kernel memory memory')
    (hname : name.length < 16) (hsegname : segment.length < 16) (ncmds i : Nat)
    (hi : i + ncmds = commandCount kernel memory) (before : Range) :
    commandLoop kernel memory' segment name ncmds (commandOffset kernel memory i) before =
      commandLoop kernel memory segment name ncmds (commandOffset kernel memory i) before := by
  induction ncmds generalizing i before with
  | zero => rfl
  | succ ncmds ih =>
      have hcount : i < commandCount kernel memory := by omega
      have hlt := h.command_lt hcount
      have hcommand := h.commandSize i hcount
      have hmono : commandOffset kernel memory (i + 1) ≤ commandOffset kernel memory (commandCount kernel memory) :=
        commandOffset_mono kernel memory (Nat.succ_le_of_lt hcount)
      rw [commandAt] at hlt hcommand
      rw [commandOffset] at hmono
      have hindex : (commandOffset kernel memory i + wordAt memory 4 (kernel.data + commandOffset kernel memory i + 4)) %
          2 ^ 32 = commandOffset kernel memory (i + 1) := Nat.mod_eq_of_lt (by omega)
      have hword : wordAt memory' 4 (kernel.data + commandOffset kernel memory i + 4) =
          wordAt memory 4 (kernel.data + commandOffset kernel memory i + 4) := halike.word (by omega) (by omega)
      rw [commandLoop, commandLoop, hword, hindex, ← commandAt, h.getSectionStep_alike halike hname hsegname hcount]
      exact congrArg _ (funext fun between => ih (i + 1) (by omega) between)

theorem IsMachO64.getSection_alike (h : IsMachO64 kernel memory) (halike : HeaderAlike kernel memory memory')
    (hname : name.length < 16) (hsegname : segment.length < 16) (before : Range) :
    getSection kernel memory' segment name before = getSection kernel memory segment name before := by
  have hheader : commandOffset kernel memory 0 ≤ commandOffset kernel memory (commandCount kernel memory) :=
    commandOffset_mono kernel memory (Nat.zero_le _)
  have hzero : commandOffset kernel memory 0 = 32 := rfl
  rw [getSection, getSection, h.is64, if_pos rfl, halike.word (by omega) (by omega)]
  exact h.commandLoop_alike halike hname hsegname (commandCount kernel memory) 0 (Nat.zero_add _) before

end BareBoot.Kernel
