import BareBoot.KernelSections
import BareBoot.GreedyReplace

/-! Which bytes the patch routines access: a search stays in the section looked up last exactly if the image has it,
or if what was found before is too short for the pattern. -/

namespace BareBoot.Kernel

open Plist Kext

/-- An access in the section of the name looked up last. -/
def Access.Within (kernel : KernelImage) (memory : Memory) (access : Access) : Prop :=
  match access.looked with
  | none => False
  | some (segment, name) => InSection kernel memory segment name access.address

def PatchStep.WellSized : PatchStep → Prop
  | .getSection segment name => segment.length < 16 ∧ name.length < 16
  | .searchAndReplace search replace => 0 < search.length ∧ replace.length = search.length

instance (step : PatchStep) : Decidable step.WellSized := by
  cases step <;> exact inferInstanceAs (Decidable (_ ∧ _))

/-- The image has the section. -/
def Has (kernel : KernelImage) (memory : Memory) : Option (Bytes × Bytes) → Prop
  | none => False
  | some (segment, name) => HasSection kernel memory segment name

/-- The section is there and has less than so many bytes. -/
def Shorter (kernel : KernelImage) (memory : Memory) (count : Nat) : Option (Bytes × Bytes) → Prop
  | none => False
  | some (segment, name) => ∃ layout sect, IsSection kernel memory segment name layout sect ∧ sectSize memory layout sect < count

/-- Every search stands behind the lookup of a section that the image has, or the section `held` that was found last
is shorter than the pattern. -/
def StepsWithin (kernel : KernelImage) (memory : Memory) : Option (Bytes × Bytes) → Option (Bytes × Bytes) → List PatchStep → Prop
  | _, _, [] => True
  | _, held, .getSection segment name :: steps =>
      (HasSection kernel memory segment name →
        StepsWithin kernel memory (some (segment, name)) (some (segment, name)) steps) ∧
      (¬HasSection kernel memory segment name → StepsWithin kernel memory (some (segment, name)) held steps)
  | looked, held, .searchAndReplace search _ :: steps =>
      (Has kernel memory looked ∨ Shorter kernel memory search.length held) ∧ StepsWithin kernel memory looked held steps

variable {kernel : KernelImage} {memory memory' : Memory} {segment name : Bytes}

@[simp]
theorem not_shorter_none (count : Nat) : ¬Shorter kernel memory count none := id

theorem Shorter.mono {count count' : Nat} {held : Option (Bytes × Bytes)} (h : Shorter kernel memory count held)
    (hle : count ≤ count') : Shorter kernel memory count' held := by
  rcases held with _ | ⟨segment, name⟩
  · exact h
  · obtain ⟨layout, sect, hsect, hsize⟩ := h
    exact ⟨layout, sect, hsect, lt_of_lt_of_le hsize hle⟩

/-! ### One search -/

theorem comparedWindows_bounds {search : Bytes} {left source a : Nat} (h : a ∈ comparedWindows memory search left source) :
    source ≤ a ∧ a < source + left := by
  induction left generalizing source with
  | zero => cases h
  | succ left ih =>
      rw [comparedWindows] at h
      rcases List.mem_cons.1 h with rfl | h
      · omega
      · split_ifs at h
        · cases h
        · have := ih h
          omega

theorem mem_window {looked : Option (Bytes × Bytes)} {count source : Nat} {access : Access} :
    access ∈ window looked count source ↔ ∃ i < count, access = ⟨looked, source + i⟩ := by
  simp [window, eq_comm]

/-- The accesses of a search over a range. -/
def searchAccesses (state : PatchState) (search : Bytes) : List Access :=
  (comparedWindows state.memory search (state.range.size + 1 - search.length) state.range.addr).flatMap
    (window state.looked search.length)

theorem searchAccesses_inside {state : PatchState} {search : Bytes} {access : Access}
    (h : access ∈ searchAccesses state search) :
    access.looked = state.looked ∧ state.range.addr ≤ access.address ∧
      access.address < state.range.addr + state.range.size := by
  obtain ⟨a, ha, haccess⟩ := List.mem_flatMap.1 h
  obtain ⟨i, hi, rfl⟩ := mem_window.1 haccess
  have := comparedWindows_bounds ha
  refine ⟨rfl, ?_, ?_⟩ <;> dsimp only <;> omega

/-- A range that the pattern fits in is accessed from its first byte on. -/
theorem searchAccesses_first {state : PatchState} {search : Bytes} (hpos : 0 < search.length)
    (hfits : search.length ≤ state.range.size) : ⟨state.looked, state.range.addr⟩ ∈ searchAccesses state search := by
  obtain ⟨left, hleft⟩ := Nat.exists_eq_succ_of_ne_zero (show state.range.size + 1 - search.length ≠ 0 by omega)
  refine List.mem_flatMap.2 ⟨state.range.addr, ?_, mem_window.2 ⟨0, hpos, rfl⟩⟩
  rw [hleft, comparedWindows]
  exact List.mem_cons_self

theorem searchAccesses_short {state : PatchState} {search : Bytes} (h : state.range.size < search.length) :
    searchAccesses state search = [] := by
  rw [searchAccesses, show state.range.size + 1 - search.length = 0 by omega]
  rfl

/-- A section that is missing is not accessed, and one that is there has the range. -/
theorem searchAccesses_within_iff {state : PatchState} {search : Bytes} (hpos : 0 < search.length)
    (hlooked : ∀ segment name, state.looked = some (segment, name) → HasSection kernel memory segment name →
      Located kernel memory segment name state.range) :
    (∀ access ∈ searchAccesses state search, access.Within kernel memory) ↔
      Has kernel memory state.looked ∨ state.range.size < search.length := by
  constructor
  · intro h
    by_contra hnot
    rw [not_or, not_lt] at hnot
    have hfirst := h _ (searchAccesses_first hpos hnot.2)
    rw [Access.Within] at hfirst
    rcases hstate : state.looked with _ | ⟨segment, name⟩
    · simp only [hstate] at hfirst
    · simp only [hstate] at hfirst
      rw [hstate, Has] at hnot
      exact not_inSection hnot.1 _ hfirst
  · rintro (h | h) access haccess
    · obtain ⟨hsame, hlow, hhigh⟩ := searchAccesses_inside haccess
      rcases hstate : state.looked with _ | ⟨segment, name⟩
      · rw [hstate] at h
        exact h.elim
      · rw [hstate] at h hsame
        rw [Access.Within, hsame]
        exact ((hlooked segment name hstate h).inSection _).2 ⟨hlow, hhigh⟩
    · rw [searchAccesses_short h] at haccess
      cases haccess

/-! ### Runs -/

/-- The steps run to their end with every access in the section looked up last. -/
def Stays (kernel : KernelImage) (memory : Memory) (state : PatchState) (steps : List PatchStep) : Prop :=
  ∃ out, patchSteps kernel state steps = some out ∧ ∀ access ∈ out.2, access.Within kernel memory

theorem stays_getSection {state : PatchState} {steps : List PatchStep} {range : Range}
    (h : getSection kernel state.memory segment name state.range = some range) :
    Stays kernel memory state (.getSection segment name :: steps) ↔
      Stays kernel memory ⟨state.memory, range, some (segment, name)⟩ steps := by
  have hrun : patchSteps kernel state (.getSection segment name :: steps) =
      patchSteps kernel ⟨state.memory, range, some (segment, name)⟩ steps := by
    rw [patchSteps, patchStep, h]
    simp
  rw [Stays, Stays, hrun]

theorem stays_searchAndReplace (kernel : KernelImage) (memory : Memory) (state : PatchState) (steps : List PatchStep)
    {search replace : Bytes}
    (hpos : 0 < search.length) (hsame : replace.length = search.length) :
    ∃ after, (∀ x, x < state.range.addr ∨ state.range.addr + state.range.size ≤ x → after x = state.memory x) ∧
      (Stays kernel memory state (.searchAndReplace search replace :: steps) ↔
        (∀ access ∈ searchAccesses state search, access.Within kernel memory) ∧
          Stays kernel memory ⟨after, state.range, state.looked⟩ steps) := by
  obtain ⟨⟨after, count⟩, hrun, hframe⟩ := searchAndReplace_frame hpos hsame state.range.addr state.range.size 1 state.memory
  refine ⟨after, hframe, ?_⟩
  have hsteps : patchSteps kernel state (.searchAndReplace search replace :: steps) =
      (patchSteps kernel ⟨after, state.range, state.looked⟩ steps).map
        fun rest => (rest.1, searchAccesses state search ++ rest.2) := by
    rw [patchSteps, patchStep, hrun]
    cases hrest : patchSteps kernel ⟨after, state.range, state.looked⟩ steps <;> simp [hrest, searchAccesses]
  rw [Stays, Stays, hsteps]
  constructor
  · rintro ⟨out, hout, hwithin⟩
    obtain ⟨rest, hrest, rfl⟩ := Option.map_eq_some_iff.1 hout
    rw [List.forall_mem_append] at hwithin
    exact ⟨hwithin.1, rest, hrest, hwithin.2⟩
  · rintro ⟨hfirst, rest, hrest, hwithin⟩
    exact ⟨_, Option.map_eq_some_iff.2 ⟨rest, hrest, rfl⟩, List.forall_mem_append.2 ⟨hfirst, hwithin⟩⟩

/-- From a range that a lookup has found. -/
theorem IsMachO64.stays_iff (h : IsMachO64 kernel memory) {steps : List PatchStep}
    (hsized : ∀ step ∈ steps, step.WellSized) (state : PatchState) {heldSegment heldName : Bytes}
    (halike : HeaderAlike kernel memory state.memory) (hheld : Located kernel memory heldSegment heldName state.range)
    (hlooked : ∀ segment name, state.looked = some (segment, name) → HasSection kernel memory segment name →
      heldSegment = segment ∧ heldName = name) :
    Stays kernel memory state steps ↔
      StepsWithin kernel memory state.looked (some (heldSegment, heldName)) steps := by
  induction steps generalizing state heldSegment heldName with
  | nil => exact iff_of_true ⟨_, rfl, fun access haccess => by cases haccess⟩ trivial
  | cons step steps ih =>
      rw [List.forall_mem_cons] at hsized
      obtain ⟨hstep, hsized⟩ := hsized
      cases step with
      | getSection segment name =>
          have hsame := h.getSection_alike halike hstep.2 hstep.1 state.range
          by_cases hsection : HasSection kernel memory segment name
          · obtain ⟨range, hlocated, hget⟩ := h.getSection_located hsection
            rw [stays_getSection (hsame.trans (hget _)),
              @ih hsized ⟨state.memory, range, some (segment, name)⟩ segment name halike hlocated, StepsWithin]
            · simp [hsection]
            · intro segment' name' hlast _
              cases hlast
              exact ⟨rfl, rfl⟩
          · rw [stays_getSection (hsame.trans (h.getSection_missing hsection _)),
              @ih hsized ⟨state.memory, state.range, some (segment, name)⟩ heldSegment heldName halike hheld, StepsWithin]
            · simp [hsection]
            · intro segment' name' hlast hsection'
              cases hlast
              exact absurd hsection' hsection
      | searchAndReplace search replace =>
          obtain ⟨after, hframe, hstays⟩ := stays_searchAndReplace kernel memory state steps hstep.1 hstep.2
          have halike' : HeaderAlike kernel memory after := by
            intro x hlow hhigh
            rw [hframe x (by have := hheld.apart; omega), halike x hlow hhigh]
          rw [hstays, searchAccesses_within_iff hstep.1,
            @ih hsized ⟨after, state.range, state.looked⟩ heldSegment heldName halike' hheld hlooked, StepsWithin]
          · refine and_congr_left fun _ => or_congr_right ?_
            obtain ⟨layout, sect, hsect, -, hsize⟩ := hheld.isSection
            constructor
            · intro hshort
              exact ⟨layout, sect, hsect, hsize ▸ hshort⟩
            · rintro ⟨layout', sect', hsect', hshort⟩
              obtain ⟨rfl, rfl⟩ := h.unique _ _ _ _ _ _ hsect hsect'
              rwa [hsize] at hshort
          · intro segment name hlast hsection
            obtain ⟨rfl, rfl⟩ := hlooked segment name hlast hsection
            exact hheld

theorem headerAlike_self (kernel : KernelImage) (memory : Memory) : HeaderAlike kernel memory memory := fun _ _ _ => rfl

/-- From whatever stood in the variables, where no lookup has found a section yet. -/
theorem IsMachO64.stays_unset_iff (h : IsMachO64 kernel memory) {steps : List PatchStep}
    (hsized : ∀ step ∈ steps, step.WellSized) (looked : Option (Bytes × Bytes)) (hlooked : ¬Has kernel memory looked) :
    (∀ range, Stays kernel memory ⟨memory, range, looked⟩ steps) ↔ StepsWithin kernel memory looked none steps := by
  induction steps generalizing looked with
  | nil => exact iff_of_true (fun range => ⟨_, rfl, fun access haccess => by cases haccess⟩) trivial
  | cons step steps ih =>
      rw [List.forall_mem_cons] at hsized
      obtain ⟨hstep, hsized⟩ := hsized
      cases step with
      | getSection segment name =>
          rw [StepsWithin]
          by_cases hsection : HasSection kernel memory segment name
          · obtain ⟨range, hlocated, hget⟩ := h.getSection_located hsection
            have hrest := h.stays_iff hsized ⟨memory, range, some (segment, name)⟩
              (headerAlike_self kernel memory) hlocated (fun _ _ hlast _ => by cases hlast; exact ⟨rfl, rfl⟩)
            simp only [hsection, not_true_eq_false, forall_true_left, false_imp_iff, and_true, ← hrest]
            constructor
            · intro hall
              exact (stays_getSection (hget ⟨0, 0⟩)).1 (hall ⟨0, 0⟩)
            · intro hstays before
              exact (stays_getSection (hget before)).2 hstays
          · simp only [hsection, not_false_eq_true, forall_true_left, false_imp_iff, true_and,
              ← ih hsized (some (segment, name)) hsection]
            exact forall_congr' fun before => stays_getSection (h.getSection_missing hsection before)
      | searchAndReplace search replace =>
          rw [StepsWithin]
          constructor
          · intro hall
            obtain ⟨after, -, hstays⟩ := stays_searchAndReplace kernel memory ⟨memory, ⟨0, search.length⟩, looked⟩ steps
              hstep.1 hstep.2
            have hfirst := (hstays.1 (hall _)).1 _ (searchAccesses_first hstep.1 le_rfl)
            rcases looked with _ | ⟨segment, name⟩
            · exact hfirst.elim
            · exact absurd hfirst (not_inSection hlooked _)
          · rintro ⟨hhas | hshorter, -⟩
            · exact absurd hhas hlooked
            · exact hshorter.elim

/-! ### The patches -/

theorem cpuIdSteps_wellSized (is64BitKernel : Bool) (cpuIdSing : Nat) (kernVersion : Bytes) :
    ∀ step ∈ cpuIdSteps is64BitKernel cpuIdSing kernVersion, step.WellSized := by
  have hreplace : (replaceCpuId cpuIdSing).length = 13 := by
    rw [replaceCpuId, List.length_append, List.length_append, List.length_map, List.length_range]
    rfl
  have hone : (cpuId_1 cpuIdSing).WellSized := ⟨by decide, hreplace⟩
  have htwo : (cpuId_2 cpuIdSing).WellSized := ⟨by decide, hreplace⟩
  have htext : textText.WellSized := by decide
  rw [cpuIdSteps]
  split_ifs <;> simp only [List.forall_mem_cons] <;> simp [hone, htwo, htext]

theorem booterExtensionsSteps_wellSized (is64BitKernel : Bool) (kernVersion : Bytes) :
    ∀ step ∈ booterExtensionsSteps is64BitKernel kernVersion, step.WellSized := by
  rw [booterExtensionsSteps]
  split_ifs <;> decide +kernel

end BareBoot.Kernel
