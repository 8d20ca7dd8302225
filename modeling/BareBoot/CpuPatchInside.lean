import BareBoot.CpuPatch

/-! When the patches of the CPU detection and of the SSE3 routine end inside the kernel. -/

namespace BareBoot.Kernel

open Plist

variable {kernel : KernelBytes} {pattern : Pattern} {patch : Sse3Patch}

/-- A kernel of a 4 GB address space that is loaded at `0x200000` or above. -/
def LoadedLow (kernel : KernelBytes) : Prop := 0x200000 + kernel.size ≤ 2 ^ 32

/-- From `i` on, `pattern` stands first at `p`. -/
structure FirstAt (kernel : KernelBytes) (pattern : Pattern) (i p : Nat) : Prop where
  le : i ≤ p
  found : kernel.holds p pattern = true
  first : ∀ j, i ≤ j → j < p → ¬kernel.holds j pattern = true

theorem FirstAt.unique {i p p' : Nat} (h : FirstAt kernel pattern i p) (h' : FirstAt kernel pattern i p') : p = p' := by
  rcases Nat.lt_trichotomy p p' with hlt | heq | hlt
  · exact absurd h.found (h'.first p h.le hlt)
  · exact heq
  · exact absurd h'.found (h.first p' h'.le hlt)

/-- What is compared at `i` is there. -/
def Readable (kernel : KernelBytes) (i : Nat) (pattern : Pattern) : Prop :=
  kernel.test i pattern = some (kernel.holds i pattern)

/-- The pattern begins at `i` and ends before `i + span`. -/
structure Spans (pattern : Pattern) (span : Nat) : Prop where
  head : ∃ b rest, pattern = (0, b) :: rest
  inSpan : ∀ p ∈ pattern, 0 ≤ p.1 ∧ p.1 < span
  last : ∃ b, ((span : Int) - 1, b) ∈ pattern

theorem Spans.readable {span i : Nat} (h : Spans pattern span) (hlow : LoadedLow kernel) (hi : i + span ≤ kernel.size) :
    Readable kernel i pattern := by
  apply KernelBytes.test_eq
  intro p hp
  have hin := h.inSpan p hp
  unfold LoadedLow at hlow
  unfold u32
  omega

theorem lt_of_test {i : Nat} {found : Bool} (hhead : ∃ b rest, pattern = (0, b) :: rest) (hi : i < 2 ^ 32)
    (h : kernel.test i pattern = some found) : i < kernel.size := by
  obtain ⟨b, rest, rfl⟩ := hhead
  have hlt := KernelBytes.test_first h
  rwa [add_zero, u32_natCast hi] at hlt

/-- A match that could be read lies inside. -/
theorem Spans.fits {span i : Nat} (h : Spans pattern span) (hlow : LoadedLow kernel) (hspan : span ≤ 0x100000) (hi : i < 2 ^ 32)
    (hread : Readable kernel i pattern) (hholds : kernel.holds i pattern = true) : i + span ≤ kernel.size := by
  rw [Readable, hholds] at hread
  have hlt := lt_of_test h.head hi hread
  obtain ⟨b, hlast⟩ := h.last
  have hin := KernelBytes.test_inside hread _ hlast
  unfold LoadedLow at hlow
  unfold u32 at hin
  simp only at hin
  omega

/-- A search ends at the first match, or goes through all its rounds, or comes to something that it cannot read. -/
theorem scan_cases (hhead : ∃ b rest, pattern = (0, b) :: rest) (hlow : LoadedLow kernel) (spent : Option (Option Nat))
    (rounds i : Nat) (hi : i < 2 ^ 32) :
    (∃ p, FirstAt kernel pattern i p ∧ p < i + rounds ∧ (∀ j, i ≤ j → j ≤ p → Readable kernel j pattern) ∧
        scan pattern spent kernel rounds i = some (some p)) ∨
      ((∀ j, i ≤ j → j < i + rounds → Readable kernel j pattern ∧ ¬kernel.holds j pattern = true) ∧
        scan pattern spent kernel rounds i = spent) ∨
      ((∃ j, i ≤ j ∧ j < i + rounds ∧ ¬Readable kernel j pattern ∧
          ∀ k, i ≤ k → k < j → ¬kernel.holds k pattern = true) ∧
        scan pattern spent kernel rounds i = none) := by
  induction rounds generalizing i with
  | zero => exact Or.inr (Or.inl ⟨fun j hle hlt => by omega, rfl⟩)
  | succ rounds ih =>
      have hsplit : ∀ j, i ≤ j → j = i ∨ i + 1 ≤ j := fun j hj => by omega
      rw [scan]
      rcases KernelBytes.test_cases kernel i pattern with htest | htest
      · refine Or.inr (Or.inr ⟨⟨i, le_rfl, by omega, ?_, fun k hle hlt => by omega⟩, ?_⟩)
        · rw [Readable, htest]
          exact fun h => by cases h
        · rw [htest]
          rfl
      · have hread : Readable kernel i pattern := htest
        have hlt := lt_of_test hhead hi htest
        have hnext : u32 ((i : Int) + 1) = i + 1 := by
          unfold LoadedLow at hlow
          unfold u32
          omega
        rw [htest, Option.bind_eq_bind, Option.bind_some, hnext]
        by_cases hholds : kernel.holds i pattern = true
        · rw [if_pos hholds]
          refine Or.inl ⟨i, ⟨le_rfl, hholds, fun j hle hlt => by omega⟩, by omega, ?_, rfl⟩
          intro j hle hge
          rwa [Nat.le_antisymm hge hle]
        · rw [if_neg hholds]
          unfold LoadedLow at hlow
          rcases ih (i + 1) (by omega) with ⟨p, hp, hbound, hreads, hrun⟩ | ⟨hnone, hrun⟩ | ⟨⟨j, hle, hbound, hbad, hbefore⟩, hrun⟩
          · have hle := hp.le
            refine Or.inl ⟨p, ⟨by omega, hp.found, ?_⟩, by omega, ?_, hrun⟩
            · intro j hj hjp
              rcases hsplit j hj with rfl | hj
              · exact hholds
              · exact hp.first j hj hjp
            · intro j hj hjp
              rcases hsplit j hj with rfl | hj
              · exact hread
              · exact hreads j hj hjp
          · refine Or.inr (Or.inl ⟨?_, hrun⟩)
            intro j hj hlt
            rcases hsplit j hj with rfl | hj
            · exact ⟨hread, hholds⟩
            · exact hnone j hj (by omega)
          · refine Or.inr (Or.inr ⟨⟨j, by omega, by omega, hbad, ?_⟩, hrun⟩)
            intro k hk hkj
            rcases hsplit k hk with rfl | hk
            · exact hholds
            · exact hbefore k hk hkj

/-! ### The loop over the routine and the title -/

/-- What `patchLocation1` is after some rounds. -/
def routineAfter (patch : Sse3Patch) (kernel : KernelBytes) : Nat → Nat → Nat → Nat
  | 0, _, patchLocation1 => patchLocation1
  | rounds + 1, i, patchLocation1 =>
      routineAfter patch kernel rounds (i + 1)
        (if kernel.holds i (routineHint patch.back) then u32 ((i : Int) - patch.back) else patchLocation1)

theorem findRoutine_cases (hhead : ∃ b rest, patch.title = (0, b) :: rest) (hlow : LoadedLow kernel)
    (spent : Nat → Option (Nat × Nat)) (rounds i patchLocation1 : Nat) (hi : i < 2 ^ 32) :
    (∃ p, FirstAt kernel patch.title i p ∧ p < i + rounds ∧
        (∀ j, i ≤ j → j ≤ p → Readable kernel j (routineHint patch.back) ∧ Readable kernel j patch.title) ∧
        findRoutine patch spent kernel rounds i patchLocation1 =
          some (routineAfter patch kernel (p + 1 - i) i patchLocation1, p)) ∨
      ((∀ j, i ≤ j → j < i + rounds → Readable kernel j patch.title ∧ ¬kernel.holds j patch.title = true) ∧
        findRoutine patch spent kernel rounds i patchLocation1 =
          spent (routineAfter patch kernel rounds i patchLocation1)) ∨
      ((∃ j, i ≤ j ∧ j < i + rounds ∧
          ¬(Readable kernel j (routineHint patch.back) ∧ Readable kernel j patch.title) ∧
          ∀ k, i ≤ k → k < j → ¬kernel.holds k patch.title = true) ∧
        findRoutine patch spent kernel rounds i patchLocation1 = none) := by
  induction rounds generalizing i patchLocation1 with
  | zero => exact Or.inr (Or.inl ⟨fun j hle hlt => by omega, rfl⟩)
  | succ rounds ih =>
      have hsplit : ∀ j, i ≤ j → j = i ∨ i + 1 ≤ j := fun j hj => by omega
      have hbad : ¬(Readable kernel i (routineHint patch.back) ∧ Readable kernel i patch.title) →
          ∃ j, i ≤ j ∧ j < i + (rounds + 1) ∧
            ¬(Readable kernel j (routineHint patch.back) ∧ Readable kernel j patch.title) ∧
            ∀ k, i ≤ k → k < j → ¬kernel.holds k patch.title = true :=
        fun h => ⟨i, le_rfl, by omega, h, fun k hle hlt => by omega⟩
      rcases KernelBytes.test_cases kernel i (routineHint patch.back) with hhint | hhint
      · refine Or.inr (Or.inr ⟨hbad ?_, ?_⟩)
        · rintro ⟨hread, -⟩
          rw [Readable, hhint] at hread
          cases hread
        · rw [findRoutine, hhint]
          rfl
      rcases KernelBytes.test_cases kernel i patch.title with htest | htest
      · refine Or.inr (Or.inr ⟨hbad ?_, ?_⟩)
        · rintro ⟨-, hread⟩
          rw [Readable, htest] at hread
          cases hread
        · rw [findRoutine, hhint, htest]
          rfl
      have hread : Readable kernel i (routineHint patch.back) ∧ Readable kernel i patch.title := ⟨hhint, htest⟩
      have hlt := lt_of_test hhead hi htest
      have hnext : u32 ((i : Int) + 1) = i + 1 := by
        unfold LoadedLow at hlow
        unfold u32
        omega
      have hstep : findRoutine patch spent kernel (rounds + 1) i patchLocation1 =
          if kernel.holds i patch.title then
            some (if kernel.holds i (routineHint patch.back) then u32 ((i : Int) - patch.back) else patchLocation1, i)
          else findRoutine patch spent kernel rounds (i + 1)
            (if kernel.holds i (routineHint patch.back) then u32 ((i : Int) - patch.back) else patchLocation1) := by
        rw [findRoutine, hhint, htest, hnext]
        rfl
      rw [hstep]
      by_cases hholds : kernel.holds i patch.title = true
      · rw [if_pos hholds]
        refine Or.inl ⟨i, ⟨le_rfl, hholds, fun j hle hlt => by omega⟩, by omega, ?_, ?_⟩
        · intro j hle hge
          rwa [Nat.le_antisymm hge hle]
        · rw [Nat.add_sub_cancel_left]
          rfl
      · rw [if_neg hholds]
        unfold LoadedLow at hlow
        rcases ih (i + 1) (if kernel.holds i (routineHint patch.back) then u32 ((i : Int) - patch.back) else patchLocation1)
          (by omega) with ⟨p, hp, hbound, hreads, hrun⟩ | ⟨hnone, hrun⟩ | ⟨⟨j, hle, hbound, hbad', hbefore⟩, hrun⟩
        · have hle := hp.le
          refine Or.inl ⟨p, ⟨by omega, hp.found, ?_⟩, by omega, ?_, ?_⟩
          · intro j hj hjp
            rcases hsplit j hj with rfl | hj
            · exact hholds
            · exact hp.first j hj hjp
          · intro j hj hjp
            rcases hsplit j hj with rfl | hj
            · exact hread
            · exact hreads j hj hjp
          · rw [hrun, show p + 1 - i = p + 1 - (i + 1) + 1 by omega, routineAfter]
        · refine Or.inr (Or.inl ⟨?_, hrun⟩)
          intro j hj hlt
          rcases hsplit j hj with rfl | hj
          · exact ⟨htest, hholds⟩
          · exact hnone j hj (by omega)
        · refine Or.inr (Or.inr ⟨⟨j, by omega, by omega, hbad', ?_⟩, hrun⟩)
          intro k hk hkj
          rcases hsplit k hk with rfl | hk
          · exact hholds
          · exact hbefore k hk hkj

/-- The last routine met from `i` to `p` is the one of the instruction at `j`. -/
structure LastHint (back : Nat) (kernel : KernelBytes) (i p j : Nat) : Prop where
  lower : i ≤ j
  upper : j ≤ p
  found : kernel.holds j (routineHint back) = true
  last : ∀ k, j < k → k ≤ p → ¬kernel.holds k (routineHint back) = true

theorem routineAfter_spec (patch : Sse3Patch) (kernel : KernelBytes) (rounds i patchLocation1 : Nat) :
    (∃ j, LastHint patch.back kernel i (i + rounds - 1) j ∧ j < i + rounds ∧
        routineAfter patch kernel rounds i patchLocation1 = u32 ((j : Int) - patch.back)) ∨
      ((∀ j, i ≤ j → j < i + rounds → ¬kernel.holds j (routineHint patch.back) = true) ∧
        routineAfter patch kernel rounds i patchLocation1 = patchLocation1) := by
  induction rounds generalizing i patchLocation1 with
  | zero => exact Or.inr ⟨fun j hle hlt => by omega, rfl⟩
  | succ rounds ih =>
      rw [routineAfter]
      rcases ih (i + 1) (if kernel.holds i (routineHint patch.back) then u32 ((i : Int) - patch.back) else patchLocation1)
        with ⟨j, hj, hlt, hrun⟩ | ⟨hnone, hrun⟩
      · have hlower := hj.lower
        rw [show i + 1 + rounds - 1 = i + (rounds + 1) - 1 by omega] at hj
        exact Or.inl ⟨j, ⟨by omega, hj.upper, hj.found, hj.last⟩, by omega, hrun⟩
      · by_cases hholds : kernel.holds i (routineHint patch.back) = true
        · rw [if_pos hholds] at hrun ⊢
          refine Or.inl ⟨i, ⟨le_rfl, by omega, hholds, ?_⟩, by omega, hrun⟩
          intro k hik hk
          exact hnone k hik (by omega)
        · rw [if_neg hholds] at hrun ⊢
          refine Or.inr ⟨?_, hrun⟩
          intro j hle hlt
          rcases Nat.eq_or_lt_of_le hle with rfl | hlt'
          · exact hholds
          · exact hnone j hlt' (by omega)

theorem LastHint.unique {back i p j j' : Nat} (h : LastHint back kernel i p j) (h' : LastHint back kernel i p j') : j = j' := by
  rcases Nat.lt_trichotomy j j' with hlt | heq | hlt
  · exact absurd h'.found (h.last j' hlt h'.upper)
  · exact heq
  · exact absurd h.found (h'.last j hlt h.upper)

theorem movdqa_spans : Spans movdqa 6 := ⟨⟨_, _, rfl⟩, by decide, ⟨0xF1, by decide⟩⟩

theorem KernelBytes.holds_append {i : Nat} {base rest : Pattern} :
    kernel.holds i (base ++ rest) = (kernel.holds i base && kernel.holds i rest) := by
  rw [KernelBytes.holds, List.all_append]
  rfl

theorem holds_base {i : Nat} {base rest : Pattern} (h : kernel.holds i (base ++ rest) = true) :
    kernel.holds i base = true := by
  rw [KernelBytes.holds_append, Bool.and_eq_true] at h
  exact h.1

/-- Behind a match of `base` the byte `back` before it is read. -/
theorem back_le_of_readable {base : Pattern} {back i : Nat} {b : UInt8} (hlow : LoadedLow kernel) (hback : back ≤ 0x100000)
    (hi : i < 2 ^ 32) (hread : Readable kernel i (base ++ [(-(back : Int), b)])) (hholds : kernel.holds i base = true) :
    back ≤ i := by
  rw [Readable, KernelBytes.test_append] at hread
  rcases KernelBytes.test_cases kernel i base with htest | htest
  · rw [htest] at hread
    cases hread
  · rw [htest, hholds, Option.bind_some, if_pos rfl] at hread
    have hin := KernelBytes.test_first hread
    unfold LoadedLow at hlow
    unfold u32 at hin
    omega

theorem back_readable {base : Pattern} {span back i : Nat} {b : UInt8} (hspans : Spans base span) (hlow : LoadedLow kernel)
    (hpos : 0 < span) (hi : i + span ≤ kernel.size) (hback : kernel.holds i base = true → back ≤ i) :
    Readable kernel i (base ++ [(-(back : Int), b)]) := by
  have hbase : kernel.test i base = some (kernel.holds i base) := hspans.readable hlow hi
  rw [Readable, KernelBytes.holds_append, KernelBytes.test_append, hbase, Option.bind_some]
  by_cases hholds : kernel.holds i base = true
  · rw [if_pos hholds, hholds, Bool.true_and]
    apply KernelBytes.test_eq
    intro p hp
    have hle := hback hholds
    rw [List.mem_singleton] at hp
    subst hp
    unfold LoadedLow at hlow
    unfold u32
    simp only
    omega
  · rw [if_neg hholds, Bool.eq_false_of_not_eq_true hholds, Bool.false_and]

/-- From `i` on, the title stands first at `p` and inside, and no instruction up to there is too near to the beginning. -/
structure TitleInside (patch : Sse3Patch) (kernel : KernelBytes) (i p : Nat) : Prop where
  title : FirstAt kernel patch.title i p
  fits : p + 10 ≤ kernel.size
  hints : ∀ j, i ≤ j → j ≤ p → kernel.holds j movdqa = true → patch.back ≤ j

theorem TitleInside.findRoutine (hspans : Spans patch.title 10) (hlow : LoadedLow kernel) {i p : Nat}
    (h : TitleInside patch kernel i p) (spent : Nat → Option (Nat × Nat)) (rounds patchLocation1 : Nat) (hrounds : p < i + rounds) :
    findRoutine patch spent kernel rounds i patchLocation1 =
      some (routineAfter patch kernel (p + 1 - i) i patchLocation1, p) := by
  have hle := h.title.le
  have hfits := h.fits
  have hlow' := hlow
  unfold LoadedLow at hlow'
  rcases findRoutine_cases hspans.head hlow spent rounds i patchLocation1 (by omega) with
    ⟨p', hp', -, -, hrun⟩ | ⟨hnone, -⟩ | ⟨⟨j, hij, -, hbad, hbefore⟩, -⟩
  · rw [hrun, hp'.unique h.title]
  · exact absurd h.title.found (hnone p hle hrounds).2
  · have hjp : j ≤ p := by
      by_contra hlt
      exact hbefore p hle (by omega) h.title.found
    exact absurd ⟨back_readable movdqa_spans hlow (by decide) (by omega) (h.hints j hij hjp), hspans.readable hlow (by omega)⟩ hbad

/-- What is read on the way lies in the kernel, and so does the way. -/
theorem lt_of_reads (hhead : ∃ b rest, pattern = (0, b) :: rest) (hlow : LoadedLow kernel) {i p : Nat} (hi : i < 2 ^ 32)
    (hreads : ∀ j, i ≤ j → j ≤ p → Readable kernel j pattern) : p < 2 ^ 32 := by
  unfold LoadedLow at hlow
  by_contra hout
  have hlt := lt_of_test hhead (by omega) (hreads (max i kernel.size) (by omega) (by omega))
  omega

theorem titleInside_of_reads (hspans : Spans patch.title 10) (hback : patch.back ≤ 0x100000) (hlow : LoadedLow kernel)
    {i p : Nat} (hp : FirstAt kernel patch.title i p) (hi : i < 2 ^ 32)
    (hreads : ∀ j, i ≤ j → j ≤ p → Readable kernel j (routineHint patch.back) ∧ Readable kernel j patch.title) :
    TitleInside patch kernel i p := by
  have hlt := lt_of_reads hspans.head hlow hi fun j hij hjp => (hreads j hij hjp).2
  constructor
  · exact hp
  · exact hspans.fits hlow (by decide) hlt (hreads p hp.le le_rfl).2 hp.found
  · exact fun j hij hjp => back_le_of_readable hlow hback (by omega) (hreads j hij hjp).1

theorem storeRoutine_of_le (hlow : LoadedLow kernel) (patcher : Bytes) {patchLocation1 patchlast : Nat}
    (h : patchLocation1 + patchlast ≤ kernel.size) :
    ∃ after, storeRoutine patcher patchLocation1 patchlast kernel = some after ∧ after.size = kernel.size := by
  induction patchlast with
  | zero => exact ⟨kernel, rfl, rfl⟩
  | succ patchlast ih =>
      obtain ⟨between, hrun, hsize⟩ := ih (by omega)
      have hindex : u32 ((patchLocation1 : Int) + (patchlast : Nat)) < between.size := by
        unfold LoadedLow at hlow
        unfold u32
        omega
      obtain ⟨after, hwrite, hafter⟩ := KernelBytes.write_of_lt (b := patcher.getD patchlast 0x90) hindex
      refine ⟨after, ?_, hafter.trans hsize⟩
      rw [storeRoutine] at hrun ⊢
      rw [List.range_succ, List.foldlM_append, hrun, Option.bind_eq_bind, Option.bind_some, List.foldlM_cons, hwrite]
      rfl

/-! ### The two patches of the SSE3 routine -/

theorem endOfRoutine_spans : Spans endOfRoutine 3 := ⟨⟨_, _, rfl⟩, by decide, ⟨0x55, by decide⟩⟩

theorem sse3_6_spans (t : Bytes) : Spans (sse3_6 t).title 10 where
  head := ⟨_, _, rfl⟩
  inSpan := (by decide : ∀ p ∈ (sse3_6 []).title, 0 ≤ p.1 ∧ p.1 < 10)
  last := ⟨0x01, (by decide : ((10 : Int) - 1, 0x01) ∈ (sse3_6 []).title)⟩

theorem sse3_5_spans (t : Bytes) : Spans (sse3_5 t).title 10 where
  head := ⟨_, _, rfl⟩
  inSpan := (by decide : ∀ p ∈ (sse3_5 []).title, 0 ≤ p.1 ∧ p.1 < 10)
  last := ⟨0x01, (by decide : ((10 : Int) - 1, 0x01) ∈ (sse3_5 []).title)⟩

/-- The title is there, no instruction up to it stands in the first 1696 bytes, and the last routine, if it does not begin
the kernel, is followed by an end of a routine. -/
def Sse3_6Inside (kernel : KernelBytes) : Prop :=
  ∃ p, TitleInside (sse3_6 []) kernel 0 p ∧
    ∀ j, LastHint 1696 kernel 0 p j → 1696 < j →
      ∃ q, j ≤ q + 196 ∧ q + 3 ≤ kernel.size ∧ kernel.holds q endOfRoutine = true

def Sse3_5Inside (kernel : KernelBytes) : Prop := ∃ p, TitleInside (sse3_5 []) kernel 256 p

theorem applySse3_of_le (hlow : LoadedLow kernel) {patchLocation1 p q : Nat} (hend : patchLocation1 ≤ q)
    (hq : q < kernel.size) (hp : p + 10 ≤ kernel.size) (hnew : ∀ r ∈ patch.newTitle, 0 ≤ r.1 ∧ r.1 < 10) :
    ∃ after, applySse3 patch kernel patchLocation1 p (some q) = some after := by
  have hlast : u32 ((q : Int) + 1 - (patchLocation1 : Nat)) = q + 1 - patchLocation1 := by
    unfold LoadedLow at hlow
    unfold u32
    omega
  obtain ⟨stored, hrun, hsize⟩ := @storeRoutine_of_le _ hlow patch.patcher patchLocation1
    (q + 1 - patchLocation1) (by omega)
  obtain ⟨after, hafter, -⟩ := @KernelBytes.writeAll_of_lt stored p patch.newTitle (by
    intro r hr
    have hin := hnew r hr
    unfold LoadedLow at hlow
    unfold u32
    omega)
  refine ⟨after, ?_⟩
  simp only [applySse3, hlast]
  rw [if_neg (by omega), hrun, Option.bind_eq_bind, Option.bind_some, hafter]

theorem patcher_SSE3_6_iff (hlow : LoadedLow kernel) (sse3_patcher : Bytes) :
    (∃ rounds after, patcher_SSE3_6 sse3_patcher rounds kernel = some after) ↔ Sse3_6Inside kernel := by
  have hlow' := hlow
  unfold LoadedLow at hlow'
  have hspans := sse3_6_spans sse3_patcher
  have hback : (sse3_6 sse3_patcher).back = 1696 := rfl
  constructor
  · rintro ⟨rounds, after, hrun⟩
    simp only [patcher_SSE3_6] at hrun
    rcases findRoutine_cases hspans.head hlow (fun _ => none) rounds 0 0 (by omega) with
      ⟨p, hp, -, hreads, hfound⟩ | ⟨-, hnone⟩ | ⟨-, hnone⟩
    · have hinside := titleInside_of_reads hspans (by omega) hlow hp (by omega) hreads
      have hfits := hinside.fits
      refine ⟨p, ⟨hp, hfits, hinside.hints⟩, ?_⟩
      intro j hj hpos
      have hupper := hj.upper
      rcases routineAfter_spec (sse3_6 sse3_patcher) kernel (p + 1 - 0) 0 0 with ⟨j', hj', -, hafter⟩ | ⟨hnone, -⟩
      · obtain rfl := @LastHint.unique _ _ _ _ _ j' hj (by rwa [hback, show 0 + (p + 1 - 0) - 1 = p by omega] at hj')
        have hloc : u32 ((j : Int) - (1696 : Nat)) = j - 1696 := by
          unfold u32
          omega
        have hstart : u32 (((j - 1696 : Nat) : Int) + 1500) = j - 196 := by
          unfold u32
          omega
        rw [hback, hloc] at hafter
        rw [hfound, hafter, Option.bind_eq_bind, Option.bind_some] at hrun
        simp only [hstart] at hrun
        rw [if_neg (by omega)] at hrun
        rcases scan_cases endOfRoutine_spans.head hlow none rounds (j - 196) (by omega) with
          ⟨q, hq, -, hreads', -⟩ | ⟨-, hnone⟩ | ⟨-, hnone⟩
        · have hqlt := lt_of_reads endOfRoutine_spans.head hlow (by omega) hreads'
          have hle := hq.le
          exact ⟨q, by omega, endOfRoutine_spans.fits hlow (by decide) hqlt (hreads' q hq.le le_rfl) hq.found, hq.found⟩
        · rw [hnone] at hrun
          cases hrun
        · rw [hnone] at hrun
          cases hrun
      · exact absurd hj.found (hnone j hj.lower (by omega))
    · rw [hnone] at hrun
      cases hrun
    · rw [hnone] at hrun
      cases hrun
  · rintro ⟨p, hp, hend⟩
    have hfits := hp.fits
    have hinside : TitleInside (sse3_6 sse3_patcher) kernel 0 p := ⟨hp.title, hp.fits, hp.hints⟩
    have hfound := hinside.findRoutine hspans hlow (fun _ => none) (kernel.size + 1) 0 (by omega)
    refine ⟨kernel.size + 1, ?_⟩
    simp only [patcher_SSE3_6]
    rw [hfound, Option.bind_eq_bind, Option.bind_some]
    rcases routineAfter_spec (sse3_6 sse3_patcher) kernel (p + 1 - 0) 0 0 with ⟨j, hj, -, hafter⟩ | ⟨-, hafter⟩
    · rw [hback, show 0 + (p + 1 - 0) - 1 = p by omega] at hj
      have hupper := hj.upper
      have hle := hp.hints j hj.lower hj.upper (holds_base hj.found)
      have hle' : 1696 ≤ j := hle
      have hloc : u32 ((j : Int) - (1696 : Nat)) = j - 1696 := by
        unfold u32
        omega
      have hstart : u32 (((j - 1696 : Nat) : Int) + 1500) = j - 196 := by
        unfold u32
        omega
      rw [hafter, hback, hloc]
      by_cases hzero : j = 1696
      · exact ⟨kernel, if_pos (Or.inl (by omega))⟩
      · rw [if_neg (by omega)]
        obtain ⟨q, hq, hqfits, hqfound⟩ := hend j hj (by omega)
        simp only [hstart]
        rcases scan_cases endOfRoutine_spans.head hlow none (kernel.size + 1) (j - 196) (by omega) with
          ⟨q', hq', -, hreads, hrun⟩ | ⟨hnone, -⟩ | ⟨⟨k, hk, -, hbad, hbefore⟩, -⟩
        · have hqlt := lt_of_test endOfRoutine_spans.head (lt_of_reads endOfRoutine_spans.head hlow (by omega) hreads)
            (hreads q' hq'.le le_rfl)
          have hq'le := hq'.le
          rw [hrun, Option.bind_eq_bind, Option.bind_some]
          exact applySse3_of_le hlow (by omega) hqlt hfits
            (by decide : ∀ r ∈ (sse3_6 []).newTitle, 0 ≤ r.1 ∧ r.1 < 10)
        · exact absurd hqfound (hnone q (by omega) (by omega)).2
        · have hkq : k ≤ q := by
            by_contra hlt
            exact hbefore q (by omega) (by omega) hqfound
          exact absurd (endOfRoutine_spans.readable hlow (by omega)) hbad
    · rw [hafter]
      exact ⟨kernel, if_pos (Or.inl rfl)⟩

theorem patcher_SSE3_5_iff (hlow : LoadedLow kernel) (sse3_5_patcher : Bytes) (arch : Arch) :
    (∃ after, patcher_SSE3_5 sse3_5_patcher arch kernel = some after) ↔ Sse3_5Inside kernel := by
  have hlow' := hlow
  unfold LoadedLow at hlow'
  have hspans := sse3_5_spans sse3_5_patcher
  have hback : (sse3_5 sse3_5_patcher).back = 1712 := rfl
  have hpointer : arch.sizeofPointer ≤ 8 := by cases arch <;> decide
  have hlength : u32 ((arch.sizeofPointer : Int) - 256) - 256 = 2 ^ 32 - 512 + arch.sizeofPointer := by
    unfold u32
    omega
  constructor
  · rintro ⟨after, hrun⟩
    simp only [patcher_SSE3_5] at hrun
    rcases findRoutine_cases hspans.head hlow (fun patchLocation1 => some (patchLocation1, 0))
      (u32 ((arch.sizeofPointer : Int) - 256) - 256) 256 0 (by omega) with
      ⟨p, hp, -, hreads, -⟩ | ⟨hall, -⟩ | ⟨-, hnone⟩
    · have hinside := titleInside_of_reads hspans (by omega) hlow hp (by omega) hreads
      exact ⟨p, hp, hinside.fits, hinside.hints⟩
    · have hlt := lt_of_test hspans.head (by omega) (hall (max 256 kernel.size) (by omega) (by omega)).1
      omega
    · rw [hnone] at hrun
      cases hrun
  · rintro ⟨p, hp⟩
    have hfits := hp.fits
    have hinside : TitleInside (sse3_5 sse3_5_patcher) kernel 256 p := ⟨hp.title, hp.fits, hp.hints⟩
    have hle := hp.title.le
    refine ⟨kernel, ?_⟩
    simp only [patcher_SSE3_5]
    rw [hinside.findRoutine hspans hlow _ _ 0 (by omega), Option.bind_eq_bind, Option.bind_some]
    rcases routineAfter_spec (sse3_5 sse3_5_patcher) kernel (p + 1 - 256) 256 0 with ⟨j, hj, -, hafter⟩ | ⟨-, hafter⟩
    · rw [hback, show 256 + (p + 1 - 256) - 1 = p by omega] at hj
      have hupper := hj.upper
      have hle' : 1712 ≤ j := hp.hints j hj.lower hj.upper (holds_base hj.found)
      have hstart : arch.sizeofPointer - u32 ((u32 ((j : Int) - (1712 : Nat)) : Int) + 1500) = 0 := by
        unfold u32
        omega
      rw [hafter, hback]
      split_ifs with hzero
      · rfl
      · rw [hstart]
        rfl
    · rw [hafter]
      exact if_pos (Or.inl rfl)

/-! ### The patch of the CPU detection -/

theorem panicStores_spans : Spans panicStores 12 := ⟨⟨_, _, rfl⟩, by decide, ⟨0x05, by decide⟩⟩

theorem tscPanic_spans : Spans tscPanic 7 := ⟨⟨_, _, rfl⟩, by decide, ⟨0x00, by decide⟩⟩

/-- The jump over the panic: `test eax,eax` and a `jnz`. -/
def jumpOver : Pattern := [(0, 0x85), (1, 0xC0), (2, 0x75)]

theorem jumpOver_spans : Spans jumpOver 3 := ⟨⟨_, _, rfl⟩, by decide, ⟨0x75, by decide⟩⟩

/-- What is compared at distance `i` before `jumpaddr`. -/
theorem jump_holds {jumpaddr i : Nat} (hle : i + 3 ≤ jumpaddr) :
    kernel.holds jumpaddr [(-(i : Int) - 3, 0x85), (-(i : Int) - 2, 0xC0), (-(i : Int) - 1, 0x75)] =
      kernel.holds (jumpaddr - 3 - i) jumpOver := by
  have hindex : ∀ k : Int, (jumpaddr : Int) + (-(i : Int) - 3 + k) = ((jumpaddr - 3 - i : Nat) : Int) + k := by
    intro k
    omega
  have h0 := hindex 0
  have h1 := hindex 1
  have h2 := hindex 2
  simp only [KernelBytes.holds, jumpOver, List.all_cons, List.all_nil]
  rw [← h0, ← h1, ← h2, show -(i : Int) - 3 + 0 = -i - 3 by omega, show -(i : Int) - 3 + 1 = -i - 2 by omega,
    show -(i : Int) - 3 + 2 = -i - 1 by omega]

theorem findJump_cases (hlow : LoadedLow kernel) {jumpaddr : Nat} (hin : jumpaddr ≤ kernel.size) (rounds i : Nat)
    (hi : i + rounds ≤ 500) :
    (∃ k, k + 3 ≤ jumpaddr ∧ kernel.holds (jumpaddr - 3 - k) jumpOver = true ∧ k < 500 ∧
        findJump kernel jumpaddr rounds i = some (some k)) ∨
      ((rounds = 0 ∨ i + rounds + 2 ≤ jumpaddr) ∧ findJump kernel jumpaddr rounds i = some none) ∨
      (jumpaddr < i + rounds + 2 ∧
        (∀ k, i ≤ k → k + 3 ≤ jumpaddr → ¬kernel.holds (jumpaddr - 3 - k) jumpOver = true) ∧
        findJump kernel jumpaddr rounds i = none) := by
  induction rounds generalizing i with
  | zero => exact Or.inr (Or.inl ⟨Or.inl rfl, rfl⟩)
  | succ rounds ih =>
      rw [findJump]
      by_cases hle : i + 3 ≤ jumpaddr
      · have htest : kernel.test jumpaddr [(-(i : Int) - 3, 0x85), (-(i : Int) - 2, 0xC0), (-(i : Int) - 1, 0x75)] =
            some (kernel.holds (jumpaddr - 3 - i) jumpOver) := by
          rw [← jump_holds hle]
          apply KernelBytes.test_eq
          intro p hp
          unfold LoadedLow at hlow
          simp only [List.mem_cons, List.not_mem_nil, or_false] at hp
          unfold u32
          rcases hp with rfl | rfl | rfl <;> simp only <;> omega
        rw [htest, Option.bind_eq_bind, Option.bind_some]
        by_cases hholds : kernel.holds (jumpaddr - 3 - i) jumpOver = true
        · rw [if_pos hholds]
          exact Or.inl ⟨i, hle, hholds, by omega, rfl⟩
        · rw [if_neg hholds]
          rcases ih (i + 1) (by omega) with hfound | ⟨hend, hrun⟩ | ⟨hshort, hnone, hrun⟩
          · exact Or.inl hfound
          · exact Or.inr (Or.inl ⟨Or.inr (by omega), hrun⟩)
          · refine Or.inr (Or.inr ⟨by omega, ?_, hrun⟩)
            intro k hk hkle
            rcases Nat.eq_or_lt_of_le hk with rfl | hlt
            · exact hholds
            · exact hnone k hlt hkle
      · refine Or.inr (Or.inr ⟨by omega, fun k hk hkle => absurd hkle (by omega), ?_⟩)
        have hout : ¬u32 ((jumpaddr : Int) + (-(i : Int) - 3)) < kernel.size := by
          unfold LoadedLow at hlow
          unfold u32
          omega
        rw [KernelBytes.test, KernelBytes.read, if_neg hout]
        rfl

theorem jumpOver_fill {a s : Nat} (ha : a + 3 < 2 ^ 32) : (kernel.fill s 5 0x90).holds a jumpOver = true ↔
    kernel.holds a jumpOver = true ∧ (a + 3 ≤ s ∨ s + 5 ≤ a) := by
  have hindex : ∀ k : Nat, k < 3 → u32 ((a : Int) + (k : Int)) = a + k := by
    intro k hk
    unfold u32
    omega
  constructor
  · intro h
    refine ⟨KernelBytes.holds_of_fill (by decide) h, ?_⟩
    by_contra hnot
    obtain ⟨k, hk, hin⟩ : ∃ k, k < 3 ∧ s ≤ a + k ∧ a + k < s + 5 := by
      by_cases hs : s ≤ a
      · exact ⟨0, by omega, by omega, by omega⟩
      · exact ⟨s - a, by omega, by omega, by omega⟩
    rw [KernelBytes.holds_iff] at h
    obtain ⟨b, hmem, hb⟩ : ∃ b, ((k : Int), b) ∈ jumpOver ∧ b ≠ 0x90 := by
      interval_cases k
      · exact ⟨0x85, by decide, by decide⟩
      · exact ⟨0xC0, by decide, by decide⟩
      · exact ⟨0x75, by decide, by decide⟩
    have hbyte := h _ hmem
    rw [hindex k hk, KernelBytes.fill_byte_inside hin] at hbyte
    exact hb hbyte.symm
  · rintro ⟨h, hapart⟩
    apply KernelBytes.holds_fill _ h
    intro p hp hin
    have hspan := jumpOver_spans.inSpan p hp
    unfold u32 at hin
    omega

/-- The jump over the panic stands at `a`, and not in what is overwritten behind the panic of the time stamp counter. -/
def JumpAt (kernel : KernelBytes) (a : Nat) : Prop :=
  kernel.holds a jumpOver = true ∧
    ∀ t, FirstAt kernel tscPanic 0 t → t < searchWindow → a + 3 ≤ t + 7 ∨ t + 12 ≤ a

theorem patchTsc_spec (hlow : LoadedLow kernel) (hsize : searchWindow + 12 ≤ kernel.size) :
    ∃ after, patchTsc kernel = some after ∧ after.size = kernel.size ∧
      ∀ a, a + 3 < 2 ^ 32 → (after.holds a jumpOver = true ↔ JumpAt kernel a) := by
  have hwindow : searchWindow = 2 ^ 24 := rfl
  rw [patchTsc]
  rcases scan_cases tscPanic_spans.head hlow (some none) searchWindow 0 (by omega) with
    ⟨t, ht, hlt, -, hrun⟩ | ⟨hnone, hrun⟩ | ⟨⟨j, -, hlt, hbad, -⟩, -⟩
  · have hindex : u32 ((t : Int) + 7) = t + 7 := by
      unfold u32
      omega
    refine ⟨kernel.fill (t + 7) 5 0x90, ?_, rfl, ?_⟩
    · rw [hrun, Option.bind_eq_bind, Option.bind_some]
      simp only [hindex]
      exact writeAll_noCall (by omega) (by omega)
    · intro a ha
      rw [jumpOver_fill ha, JumpAt]
      apply and_congr_right
      intro _
      constructor
      · intro hapart t' ht' _
        rw [ht'.unique ht]
        omega
      · intro hall
        have := hall t ht (by omega)
        omega
  · refine ⟨kernel, by rw [hrun]; rfl, rfl, ?_⟩
    intro a _
    rw [JumpAt]
    refine ⟨fun h => ⟨h, fun t ht hlt => absurd ht.found (hnone t ht.le (by omega)).2⟩, And.left⟩
  · exact absurd (tscPanic_spans.readable hlow (by omega)) hbad

theorem redirectJump_found (hlow : LoadedLow kernel) {patchLocation k : Nat}
    (hfound : findJump kernel patchLocation 500 0 = some (some k)) (hk : k + 3 ≤ patchLocation)
    (hin : patchLocation < kernel.size) (hlarge : 17 ≤ patchLocation) :
    ∃ after, redirectJump kernel patchLocation = some (after, patchLocation - k) ∧ after.size = kernel.size := by
  unfold LoadedLow at hlow
  have hjump : u32 ((patchLocation : Int) - (k : Nat)) = patchLocation - k := by
    unfold u32
    omega
  have hbefore : u32 (((patchLocation - k : Nat) : Int) - 1) < kernel.size := by
    unfold u32
    omega
  have hfar : u32 ((patchLocation : Int) - 17) < kernel.size := by
    unfold u32
    omega
  obtain ⟨written, hwrite, hsize⟩ := KernelBytes.write_of_lt (b := 0x77) hbefore
  rw [redirectJump, hfound, Option.bind_eq_bind, Option.bind_some]
  simp only [hjump, hwrite, Option.bind_eq_bind, Option.bind_some]
  rw [KernelBytes.read, if_pos (by rwa [hsize]), Option.bind_some]
  split_ifs with hbyte
  · obtain ⟨after, hwrite', hsize'⟩ := @KernelBytes.write_of_lt written (patchLocation - k)
      (written.byte (patchLocation - k) - 10) (by omega)
    refine ⟨after, ?_, hsize'.trans hsize⟩
    rw [KernelBytes.read, if_pos (by omega), Option.bind_some, hwrite', Option.bind_some]
  · exact ⟨written, rfl, hsize⟩

theorem far_of_redirectJump (hlow : LoadedLow kernel) {patchLocation k : Nat} {r : KernelBytes × Nat}
    (hfound : findJump kernel patchLocation 500 0 = some (some k)) (hk : k + 3 ≤ patchLocation)
    (hin : patchLocation < kernel.size) (hrun : redirectJump kernel patchLocation = some r) : 17 ≤ patchLocation := by
  unfold LoadedLow at hlow
  have hjump : u32 ((patchLocation : Int) - (k : Nat)) = patchLocation - k := by
    unfold u32
    omega
  have hbefore : u32 (((patchLocation - k : Nat) : Int) - 1) < kernel.size := by
    unfold u32
    omega
  obtain ⟨written, hwrite, hsize⟩ := KernelBytes.write_of_lt (b := 0x77) hbefore
  rw [redirectJump, hfound, Option.bind_eq_bind, Option.bind_some] at hrun
  simp only [hjump, hwrite, Option.bind_eq_bind, Option.bind_some] at hrun
  by_contra hnear
  have hout : ¬u32 ((patchLocation : Int) - 17) < written.size := by
    unfold u32
    omega
  rw [KernelBytes.read, if_neg hout] at hrun
  cases hrun

theorem copyBytes_of_lt {target source : Int} (ks : List Int)
    (h : ∀ k ∈ ks, u32 (target + k) < kernel.size ∧ u32 (source + k) < kernel.size) :
    ∃ after, ks.foldlM (fun (kernel : KernelBytes) (k : Int) => copyByte kernel (u32 (target + k)) (u32 (source + k)))
        kernel = some after ∧ after.size = kernel.size := by
  induction ks generalizing kernel with
  | nil => exact ⟨kernel, rfl, rfl⟩
  | cons k ks ih =>
      obtain ⟨⟨htarget, hsource⟩, hrest⟩ := List.forall_mem_cons.mp h
      obtain ⟨between, hwrite, hsize⟩ := KernelBytes.write_of_lt (b := kernel.byte (u32 (source + k))) htarget
      obtain ⟨after, hrun, hafter⟩ := @ih between (by rwa [hsize])
      refine ⟨after, ?_, hafter.trans hsize⟩
      rw [List.foldlM_cons, copyByte, KernelBytes.read, if_pos hsource, Option.bind_eq_bind, Option.bind_eq_bind,
        Option.bind_some, hwrite, Option.bind_some, hrun]

theorem patchFamily_of_lt (hlow : LoadedLow kernel) {patchLocation jumpaddr : Nat} (hlarge : 17 ≤ patchLocation)
    (hin : patchLocation + 7 ≤ kernel.size) (hjump : jumpaddr ≤ patchLocation) :
    ∃ after, patchFamily kernel patchLocation jumpaddr = some after ∧ after.size = kernel.size := by
  unfold LoadedLow at hlow
  have hfar : u32 ((patchLocation : Int) - 17) < kernel.size := by
    unfold u32
    omega
  have hall : ∀ (size : Nat) (pattern : Pattern), size = kernel.size → (∀ p ∈ pattern, -17 ≤ p.1 ∧ p.1 < 5) →
      ∀ p ∈ pattern, u32 (patchLocation + p.1) < size := by
    intro size pattern hsize hnear p hp
    have hin := hnear p hp
    unfold u32
    omega
  have hfirst : ∃ between, storeFamily kernel patchLocation = some between ∧ between.size = kernel.size := by
    rw [storeFamily, KernelBytes.read, if_pos hfar, Option.bind_eq_bind, Option.bind_some]
    split_ifs
    · exact KernelBytes.writeAll_of_lt (hall _ _ rfl (by decide))
    · exact ⟨kernel, rfl, rfl⟩
  obtain ⟨between, hbetween, hsize⟩ := hfirst
  obtain ⟨stored, hstored, hsize'⟩ := @KernelBytes.writeAll_of_lt between patchLocation
    [(-7, 0xC7), (-6, 0x05)] (hall _ _ hsize (by decide))
  obtain ⟨copied, hcopied, hsize''⟩ := @copyBytes_of_lt stored ((patchLocation : Int) - 5)
    ((jumpaddr : Int) + 3) [0, 1, 2, 3] (by
      intro k hk
      have hk' : 0 ≤ k ∧ k < 4 := (by decide : ∀ k ∈ ([0, 1, 2, 3] : List Int), 0 ≤ k ∧ k < 4) k hk
      unfold u32
      omega)
  obtain ⟨after, hafter, hsize'''⟩ := @KernelBytes.writeAll_of_lt copied patchLocation
    [(-1, 6), (0, 14), (1, 0x01), (2, 0x00), (3, 0x90), (4, 0x90)]
    (hall _ _ (hsize''.trans (hsize'.trans hsize)) (by decide))
  refine ⟨after, ?_, by omega⟩
  simp only [patchFamily, hbetween, hstored, hcopied, hafter, Option.bind_eq_bind, Option.bind_some]

/-- The panic at `m - 5` is far enough from the beginning, or a jump over it is found before the search leaves the kernel. -/
def JumpInside (kernel : KernelBytes) (m : Nat) : Prop := 507 ≤ m ∨ (22 ≤ m ∧ ∃ a, a + 8 ≤ m ∧ JumpAt kernel a)

/-- In the first five bytes the stores do not begin, and the jump over the panic is searched for inside. -/
structure CpuInside (kernel : KernelBytes) : Prop where
  stores : ∀ i < 5, ¬kernel.holds i panicStores = true
  jump : ∀ m, FirstAt kernel panicCall 0 m → m < searchWindow → 5 < m → JumpInside kernel m

theorem patchCpuid_found (hlow : LoadedLow kernel) (hsize : searchWindow + 12 ≤ kernel.size) {m : Nat} (hm : 5 < m)
    (hlt : m < searchWindow) (hrun : scan panicCall (some none) kernel searchWindow 0 = some (some m)) :
    (JumpInside kernel m ∧ ∃ r, patchCpuid kernel = some r ∧ r.1.size = kernel.size) ∨
      (¬JumpInside kernel m ∧ patchCpuid kernel = none) := by
  have hwindow : searchWindow = 2 ^ 24 := rfl
  have hlow' := hlow
  unfold LoadedLow at hlow'
  obtain ⟨between, htsc, hbetween, hjumps⟩ := patchTsc_spec hlow hsize
  have hlocation : u32 ((m : Int) - 5) = m - 5 := by
    unfold u32
    omega
  have hfill := @writeAll_noCall between (m - 5) (by omega) (by omega)
  have hfilled : LoadedLow (between.fill (m - 5) 5 0x90) := by
    unfold LoadedLow
    exact (congrArg (0x200000 + ·) hbetween).trans_le hlow
  have hin : m - 5 < (between.fill (m - 5) 5 0x90).size := by
    change m - 5 < between.size
    omega
  have hjump : ∀ a, a + 3 ≤ m - 5 → ((between.fill (m - 5) 5 0x90).holds a jumpOver = true ↔ JumpAt kernel a) := by
    intro a ha
    rw [jumpOver_fill (by omega), hjumps a (by omega)]
    exact and_iff_left (Or.inl ha)
  have hstep : patchCpuid kernel = (redirectJump (between.fill (m - 5) 5 0x90) (m - 5)).bind fun r =>
      if r.2 = m - 5 then some (r.1, false) else (patchFamily r.1 (m - 5) r.2).bind fun after => some (after, true) := by
    rw [patchCpuid, hrun, Option.bind_eq_bind, Option.bind_some]
    simp only [hlocation, htsc, hfill, Option.bind_eq_bind, Option.bind_some]
    rw [if_neg (by omega)]
  rw [hstep]
  rcases findJump_cases hfilled hin.le 500 0 (by omega) with
    ⟨k, hk, hholds, -, hfound⟩ | ⟨hend, hfound⟩ | ⟨hshort, hnone, hfound⟩
  · by_cases hlarge : 17 ≤ m - 5
    · obtain ⟨after, hredirect, hafter⟩ := redirectJump_found hfilled hfound hk hin hlarge
      have hsize' : after.size = kernel.size := hafter.trans hbetween
      refine Or.inl ⟨Or.inr ⟨by omega, m - 5 - 3 - k, by omega, (hjump _ (by omega)).mp hholds⟩, ?_⟩
      rw [hredirect, Option.bind_some]
      split_ifs with hsame
      · exact ⟨_, rfl, hsize'⟩
      · obtain ⟨last, hfamily, hlast⟩ := @patchFamily_of_lt after
          (by unfold LoadedLow; omega) (m - 5) (m - 5 - k) hlarge (by omega) (by omega)
        simp only [hfamily, Option.bind_some]
        exact ⟨_, rfl, hlast.trans hsize'⟩
    · refine Or.inr ⟨?_, ?_⟩
      · rintro (h | h)
        · omega
        · omega
      · cases hredirect : redirectJump (between.fill (m - 5) 5 0x90) (m - 5) with
        | none => rfl
        | some r => exact absurd (far_of_redirectJump hfilled hfound hk hin hredirect) hlarge
  · refine Or.inl ⟨Or.inl (by omega), ?_⟩
    rw [redirectJump, hfound, Option.bind_eq_bind, Option.bind_some, Option.bind_some, if_pos rfl]
    exact ⟨_, rfl, hbetween⟩
  · refine Or.inr ⟨?_, ?_⟩
    · rintro (h | ⟨-, a, ha, hat⟩)
      · omega
      · have hholds := (hjump a (by omega)).mpr hat
        have hnot := hnone (m - 5 - 3 - a) (Nat.zero_le _) (by omega)
        rw [show m - 5 - 3 - (m - 5 - 3 - a) = a by omega] at hnot
        exact hnot hholds
    · rw [redirectJump, hfound]
      rfl

theorem patchCpuid_spec (hlow : LoadedLow kernel) (hsize : searchWindow + 12 ≤ kernel.size) :
    (CpuInside kernel ∧ ∃ r, patchCpuid kernel = some r ∧ r.1.size = kernel.size) ∨
      (¬CpuInside kernel ∧ patchCpuid kernel = none) := by
  have hwindow : searchWindow = 2 ^ 24 := rfl
  have hnear : ∀ i < 5, Readable kernel i panicCall → ¬kernel.holds i panicStores = true := by
    intro i hi hread hholds
    have := @back_le_of_readable _ panicStores 5 i _ hlow (by omega) (by omega) hread hholds
    omega
  rcases @scan_cases _ panicCall ⟨_, _, rfl⟩ hlow (some none) searchWindow 0 (by omega) with
    ⟨m, hm, hlt, hreads, hrun⟩ | ⟨hall, hrun⟩ | ⟨⟨j, -, hlt, hbad, hbefore⟩, hrun⟩
  · have hle : 5 ≤ m := by
      by_contra hsmall
      exact hnear m (by omega) (hreads m m.zero_le le_rfl) (holds_base hm.found)
    have hstores : ∀ i < 5, ¬kernel.holds i panicStores = true :=
      fun i hi => hnear i hi (hreads i i.zero_le (by omega))
    rcases Nat.eq_or_lt_of_le hle with rfl | hlarge
    · refine Or.inl ⟨⟨hstores, fun m' hm' _ h5 => absurd (hm'.unique hm) (by omega)⟩, (kernel, false), ?_, rfl⟩
      rw [patchCpuid, hrun]
      rfl
    · rcases patchCpuid_found hlow hsize hlarge (by omega) hrun with ⟨hinside, hdone⟩ | ⟨hnot, hnone⟩
      · refine Or.inl ⟨⟨hstores, ?_⟩, hdone⟩
        intro m' hm' _ _
        rwa [hm'.unique hm]
      · exact Or.inr ⟨fun h => hnot (h.jump m hm (by omega) hlarge), hnone⟩
  · refine Or.inl ⟨⟨fun i hi => hnear i hi (hall i i.zero_le (by omega)).1, ?_⟩, (kernel, false), ?_, rfl⟩
    · intro m hm hlt _
      exact absurd hm.found (hall m m.zero_le (by omega)).2
    · rw [patchCpuid, hrun]
      rfl
  · refine Or.inr ⟨?_, ?_⟩
    · intro hinside
      apply hbad
      apply @back_readable _ panicStores 12 5 j _ panicStores_spans hlow (by decide) (by omega)
      intro hholds
      by_contra hsmall
      exact hinside.stores j (by omega) hholds
    · rw [patchCpuid, hrun]
      rfl

/-! ### The version -/

theorem asciiStrnCmp_head {c d : UInt8} {cs ds : Bytes} {length : Nat}
    (h : asciiStrnCmp (c :: cs) (d :: ds) (length + 1) = 0) : c = d := by
  rw [asciiStrnCmp] at h
  split_ifs at h with hdiff
  · exact UInt8.toNat_inj.mp (by omega)
  · rw [not_or, not_or, not_not] at hdiff
    exact hdiff.2.2

theorem CpuPatchSettings.calls_one (settings : CpuPatchSettings) (h6 : settings.calls (ascii "10") 2 = true)
    (h5 : settings.calls (ascii "9") 1 = true) : False := by
  rw [CpuPatchSettings.calls] at h6 h5
  cases hversion : settings.kernVersion with
  | none =>
      rw [hversion] at h6
      cases h6
  | some version =>
      simp only [hversion, Bool.and_eq_true, beq_iff_eq] at h6 h5
      cases version with
      | nil => exact absurd h6.2 (by decide +kernel)
      | cons c cs =>
          have hone : ascii "10" = [49, 48] := by decide +kernel
          have hnine : ascii "9" = [57] := by decide +kernel
          rw [hone] at h6
          rw [hnine] at h5
          exact absurd ((asciiStrnCmp_head h6.2).symm.trans (asciiStrnCmp_head h5.2)) (by decide)

theorem patchSse3_iff (hlow : LoadedLow kernel) (settings : CpuPatchSettings) :
    (∃ rounds after, patchSse3 settings rounds kernel = some after) ↔
      (settings.calls (ascii "10") 2 = true → Sse3_6Inside kernel) ∧
        (settings.calls (ascii "9") 1 = true → Sse3_5Inside kernel) := by
  rw [← patcher_SSE3_6_iff hlow settings.sse3_patcher, ← patcher_SSE3_5_iff hlow settings.sse3_5_patcher settings.arch]
  unfold patchSse3
  cases h6 : settings.calls (ascii "10") 2 with
  | true =>
      have h5 : settings.calls (ascii "9") 1 = false := Bool.eq_false_of_not_eq_true (settings.calls_one h6)
      simp only [h5, if_true, Bool.false_eq_true, if_false, true_implies, false_implies, and_true, Option.bind_eq_bind]
      apply exists_congr
      intro rounds
      cases patcher_SSE3_6 settings.sse3_patcher rounds kernel <;> rfl
  | false =>
      simp only [Bool.false_eq_true, if_false, false_implies, true_and, Option.bind_eq_bind, Option.bind_some]
      cases h5 : settings.calls (ascii "9") 1 with
      | true =>
          simp only [if_true, true_implies]
          exact ⟨fun ⟨_, h⟩ => h, fun h => ⟨0, h⟩⟩
      | false => exact ⟨fun _ h => absurd h Bool.false_ne_true, fun _ => ⟨0, kernel, rfl⟩⟩

/-- The three patches end and touch nothing but the kernel exactly for the kernels described; the two calls at the end of
the first one are made on the kernel as it is then. -/
theorem cpuPatches_inside_iff (settings : CpuPatchSettings) (kernel : KernelBytes)
    (hsize : searchWindow + 12 ≤ kernel.size) (hlow : LoadedLow kernel) :
    ((∃ rounds after, kernelPatchCPU_32 settings rounds kernel = some after) ↔
        CpuInside kernel ∧ ∀ handed, patchCpuid kernel = some (handed, true) →
          (settings.calls (ascii "10") 2 = true → Sse3_6Inside handed) ∧
            (settings.calls (ascii "9") 1 = true → Sse3_5Inside handed)) ∧
      ((∃ rounds after, patcher_SSE3_6 settings.sse3_patcher rounds kernel = some after) ↔ Sse3_6Inside kernel) ∧
      ((∃ after, patcher_SSE3_5 settings.sse3_5_patcher settings.arch kernel = some after) ↔ Sse3_5Inside kernel) := by
  refine ⟨?_, patcher_SSE3_6_iff hlow _, patcher_SSE3_5_iff hlow _ _⟩
  unfold kernelPatchCPU_32
  rcases patchCpuid_spec hlow hsize with ⟨hinside, ⟨handed, atEnd⟩, hrun, hsame⟩ | ⟨hnot, hnone⟩
  · have hlow' : LoadedLow handed := by
      unfold LoadedLow
      exact (congrArg (0x200000 + ·) hsame).trans_le hlow
    rw [hrun, and_iff_right hinside]
    cases atEnd with
    | false =>
        refine ⟨fun _ handed' h => ?_, fun _ => ⟨0, handed, rfl⟩⟩
        cases h
    | true =>
        refine (patchSse3_iff hlow' settings).trans ⟨fun h handed' heq => ?_, fun h => h handed rfl⟩
        cases heq
        exact h
  · rw [hnone]
    constructor
    · rintro ⟨_, _, h⟩
      cases h
    · exact fun h => absurd h.1 hnot

def someSettings : CpuPatchSettings := ⟨none, true, .ia32, [], []⟩

theorem blankKernel_low : LoadedLow blankKernel := by
  change 0x200000 + (0x1000000 + 44) ≤ 2 ^ 32
  decide

theorem blankKernel_inside_iff :
    ((∃ rounds after, kernelPatchCPU_32 someSettings rounds blankKernel = some after) ↔
        CpuInside blankKernel ∧ ∀ handed, patchCpuid blankKernel = some (handed, true) →
          (someSettings.calls (ascii "10") 2 = true → Sse3_6Inside handed) ∧
            (someSettings.calls (ascii "9") 1 = true → Sse3_5Inside handed)) ∧
      ((∃ rounds after, patcher_SSE3_6 someSettings.sse3_patcher rounds blankKernel = some after) ↔
        Sse3_6Inside blankKernel) ∧
      ((∃ after, patcher_SSE3_5 someSettings.sse3_5_patcher someSettings.arch blankKernel = some after) ↔
        Sse3_5Inside blankKernel) :=
  cpuPatches_inside_iff someSettings blankKernel (Nat.add_le_add_left (by decide) searchWindow) blankKernel_low

/-- In a kernel of zeros the title is looked for beyond the end. -/
theorem blankKernel_left :
    ¬∀ (settings : CpuPatchSettings) (kernel : KernelBytes), searchWindow + 12 ≤ kernel.size →
      (∃ rounds after, kernelPatchCPU_32 settings rounds kernel = some after) ∧
        (∃ rounds after, patcher_SSE3_6 settings.sse3_patcher rounds kernel = some after) ∧
        ∃ after, patcher_SSE3_5 settings.sse3_5_patcher settings.arch kernel = some after := by
  intro h
  obtain ⟨-, hrun, -⟩ := h someSettings blankKernel (Nat.add_le_add_left (by decide) searchWindow)
  obtain ⟨p, hp, -⟩ := (patcher_SSE3_6_iff blankKernel_low _).mp hrun
  have hbyte := KernelBytes.holds_iff.mp hp.title.found (0, 0xE3) List.mem_cons_self
  cases hbyte

end BareBoot.Kernel
