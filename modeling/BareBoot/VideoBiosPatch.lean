import BareBoot.GreedyReplace

/-! `VideoBiosPatchSearchAndReplace` of `915resolution.c` beside `SearchAndReplace`: the loops differ in where the scan
ends, by the window less one byte. -/

namespace BareBoot.VideoBios

open Plist Kext

/-- Bytes of the source that were read or written. -/
structure Touched where
  start : Nat
  count : Nat
  deriving DecidableEq

def Touched.Inside (low high : Nat) (touched : Touched) : Prop := low ≤ touched.start ∧ touched.start + touched.count ≤ high

/-- How much `CompareMem` reads of its first buffer, by what stands in the two: no more than the length, and all of it
before it can answer that there is no difference. -/
structure CompareReads where
  count : Bytes → Bytes → Nat
  count_le : ∀ window search, count window search ≤ search.length
  count_self : ∀ search, count search search = search.length

structure Run where
  memory : Memory
  numReplaces : Nat
  touched : List Touched

def Run.after (touched : List Touched) (run : Run) : Run := { run with touched := touched ++ run.touched }

section Loop

variable (reads : CompareReads) (search replace : Bytes)

def readAt (memory : Memory) (source : Nat) : Touched := ⟨source, reads.count (bytesAt memory source search.length) search⟩

/-- The loop of `VideoBiosPatchSearchAndReplace`; `last` is `End`. -/
def patchFrom (noReplacesRestriction : Bool) (last : Nat) : Nat → Nat → Int → Nat → Memory → Option Run
  | 0, _, _, _, _ => none
  | rounds + 1, source, maxReplaces, numReplaces, memory =>
      if source < last ∧ (noReplacesRestriction ∨ 0 < maxReplaces) then
        if holds memory source search then
          (patchFrom noReplacesRestriction last rounds (source + search.length) (maxReplaces - 1) (numReplaces + 1)
            (store memory source replace)).map (Run.after [readAt reads search memory source, ⟨source, search.length⟩])
        else
          (patchFrom noReplacesRestriction last rounds (source + 1) maxReplaces numReplaces memory).map
            (Run.after [readAt reads search memory source])
      else some ⟨memory, numReplaces, []⟩

def videoBiosPatchSearchAndReplace (memory : Memory) (source sourceSize : Nat) (maxReplaces : Int) : Option Run :=
  patchFrom reads search replace (maxReplaces ≤ 0) (source + sourceSize) (sourceSize + 1) source maxReplaces 0 memory

/-- Both leave the same bytes in the region and the same count, and the first one touches nothing outside. -/
def Agrees (memory : Memory) (source sourceSize : Nat) (maxReplaces : Int) : Prop :=
  ∃ run after, videoBiosPatchSearchAndReplace reads search replace memory source sourceSize maxReplaces = some run ∧
    searchAndReplace memory source sourceSize search replace maxReplaces = some (after, run.numReplaces) ∧
    (∀ x, source ≤ x → x < source + sourceSize → run.memory x = after x) ∧
    ∀ touched ∈ run.touched, touched.Inside source (source + sourceSize)

/-- Behind the matches found no comparison at a window that sticks out of the region reads past `last`. -/
def TailQuiet (memory : Memory) (source last : Nat) (found : List Nat) : Prop :=
  ∀ a, source ≤ a → (∀ m ∈ found, m + search.length ≤ a) → a < last → last < a + search.length →
    a + (readAt reads search memory a).count ≤ last

/-- The matches in the region use up the replacements, or the tail is quiet. -/
def Stays (memory : Memory) (source last : Nat) (free : Bool) (maxReplaces : Int) (found : List Nat) : Prop :=
  (free = false ∧ maxReplaces ≤ found.length) ∨ TailQuiet reads search memory source last found

end Loop

variable {reads : CompareReads} {search replace : Bytes} {memory : Memory} {source last : Nat} {free : Bool}
  {maxReplaces : Int}

theorem bytesAt_congr {memory' : Memory} {a count : Nat} (h : ∀ i < count, memory' (a + i) = memory (a + i)) :
    bytesAt memory' a count = bytesAt memory a count := by
  apply List.map_congr_left
  intro i hi
  exact h i (List.mem_range.mp hi)

theorem bytesAt_of_holds (h : holds memory source search = true) : bytesAt memory source search.length = search := by
  apply List.ext_getElem
  · rw [bytesAt, List.length_map, List.length_range]
  · intro i _ hi
    simp only [bytesAt, List.getElem_map, List.getElem_range, holds_getD h hi]
    exact (List.getElem_eq_getD 0).symm

/-- A comparison without a difference has read its window. -/
theorem readAt_match (h : holds memory source search = true) : readAt reads search memory source = ⟨source, search.length⟩ := by
  rw [readAt, bytesAt_of_holds h, reads.count_self]

theorem readAt_inside {low : Nat} (hlow : low ≤ source) (h : source + search.length ≤ last) :
    (readAt reads search memory source).Inside low last := by
  have hle := reads.count_le (bytesAt memory source search.length) search
  exact ⟨hlow, le_trans (Nat.add_le_add_left hle source) h⟩

theorem tailQuiet_congr {memory' : Memory} {found : List Nat} (h : ∀ x, source ≤ x → memory' x = memory x) :
    TailQuiet reads search memory' source last found ↔ TailQuiet reads search memory source last found := by
  have hread : ∀ a, source ≤ a → readAt reads search memory' a = readAt reads search memory a := by
    intro a ha
    rw [readAt, readAt, bytesAt_congr fun i _ => h (a + i) (by omega)]
  constructor
  · intro hquiet a ha
    rw [← hread a ha]
    exact hquiet a ha
  · intro hquiet a ha
    rw [hread a ha]
    exact hquiet a ha

/-- A match inside the region is one more of those found. -/
theorem stays_match {found : List Nat} (hsame : replace.length = search.length) :
    Stays reads search memory source last free maxReplaces (source :: found) ↔
      Stays reads search (store memory source replace) (source + search.length) last free (maxReplaces - 1) found := by
  have hcap : maxReplaces ≤ (source :: found).length ↔ maxReplaces - 1 ≤ found.length := by
    rw [List.length_cons, Nat.cast_add, Nat.cast_one]
    omega
  have hlater : ∀ x, source + search.length ≤ x → store memory source replace x = memory x := by
    intro x hx
    exact store_outside (Or.inr (by omega))
  have htail : TailQuiet reads search memory source last (source :: found) ↔
      TailQuiet reads search memory (source + search.length) last found := by
    constructor
    · intro hquiet a ha hbehind
      exact hquiet a (by omega) (List.forall_mem_cons.mpr ⟨ha, hbehind⟩)
    · intro hquiet a _ hbehind
      obtain ⟨ha, hbehind⟩ := List.forall_mem_cons.mp hbehind
      exact hquiet a ha hbehind
  rw [Stays, Stays, hcap, htail, tailQuiet_congr hlater]

/-- Where the window fits and nothing matches, the scan only goes on. -/
theorem stays_step {found : List Nat} (hfits : source + search.length ≤ last) :
    Stays reads search memory source last free maxReplaces found ↔
      Stays reads search memory (source + 1) last free maxReplaces found := by
  apply or_congr_right
  constructor
  · intro hquiet a ha
    exact hquiet a (by omega)
  · intro hquiet a ha hbehind hlt hout
    by_cases hnext : source + 1 ≤ a
    · exact hquiet a hnext hbehind hlt hout
    · omega

/-- In the tail one comparison after the other has to stay inside. -/
theorem stays_tail (hlt : source < last) (hout : last < source + search.length)
    (hmore : free = true ∨ 0 < maxReplaces) :
    Stays reads search memory source last free maxReplaces [] ↔
      (readAt reads search memory source).Inside source last ∧
        Stays reads search memory (source + 1) last free maxReplaces [] := by
  have hcap : ¬(free = false ∧ maxReplaces ≤ ([] : List Nat).length) := by
    rintro ⟨rfl, hle⟩
    rw [List.length_nil, Nat.cast_zero] at hle
    exact hmore.elim Bool.noConfusion fun hpos => absurd hpos (not_lt.mpr hle)
  have hnone : ∀ a : Nat, ∀ m ∈ ([] : List Nat), m + search.length ≤ a := fun a m hm => absurd hm List.not_mem_nil
  rw [Stays, Stays, or_iff_right hcap, or_iff_right hcap]
  constructor
  · intro hquiet
    exact ⟨⟨le_rfl, hquiet source le_rfl (hnone source) hlt hout⟩, fun a ha => hquiet a (by omega)⟩
  · rintro ⟨⟨-, hread⟩, hquiet⟩ a ha hbehind
    rcases Nat.eq_or_lt_of_le ha with rfl | hnext
    · exact fun _ _ => hread
    · exact hquiet a hnext hbehind

/-- The scan that ends later against the one that ends at the last window: step by step as long as the window fits, and
the tail for itself. -/
theorem patchFrom_spec (hpos : 0 < search.length) (hsame : replace.length = search.length) {low inner : Nat}
    (rounds rounds' source : Nat) (maxReplaces : Int) (num : Nat) (memory : Memory) (hlow : low ≤ source)
    (hinner : ∀ a, source ≤ a → (a < inner ↔ a + search.length ≤ last)) (hrounds : last - source < rounds)
    (hrounds' : last - source < rounds') :
    ∃ run, patchFrom reads search replace free last rounds source maxReplaces num memory = some run ∧
      ((∀ touched ∈ run.touched, touched.Inside low last) ↔
        Stays reads search memory source last free maxReplaces (greedyFrom memory search (inner - source) source 0)) ∧
      ((∀ touched ∈ run.touched, touched.Inside low last) →
        replaceFrom search replace free inner rounds' source maxReplaces num memory = some (run.memory, run.numReplaces)) := by
  induction rounds generalizing source maxReplaces num memory rounds' with
  | zero => omega
  | succ rounds ih =>
      obtain ⟨rounds', rfl⟩ := Nat.exists_eq_succ_of_ne_zero (Nat.ne_of_gt (Nat.zero_lt_of_lt hrounds'))
      have hfits := hinner source le_rfl
      rw [patchFrom, replaceFrom]
      by_cases hgo : source < last ∧ (free = true ∨ 0 < maxReplaces)
      · rw [if_pos hgo]
        by_cases hin : source < inner
        · obtain ⟨left, hleft⟩ : ∃ left, inner - source = left + 1 := ⟨inner - source - 1, by omega⟩
          have hwindow := hfits.mp hin
          have hread : (readAt reads search memory source).Inside low last := readAt_inside hlow hwindow
          have hgo' : source < inner ∧ (free = true ∨ 0 < maxReplaces) := ⟨hin, hgo.2⟩
          rw [if_pos hgo', hleft]
          by_cases hfound : holds memory source search = true
          · have hlater : ∀ x, source + search.length ≤ x → store memory source replace x = memory x :=
              fun x hx => store_outside (Or.inr (by omega))
            obtain ⟨run, hrun, hstays, hsame'⟩ := ih rounds' (source + search.length) (maxReplaces - 1) (num + 1)
              (store memory source replace) (by omega) (fun a ha => hinner a (by omega)) (by omega) (by omega)
            rw [show inner - (source + search.length) = left + 1 - search.length by omega, greedyFrom_congr hlater] at hstays
            have hall : (∀ touched ∈ (Run.after [readAt reads search memory source, ⟨source, search.length⟩] run).touched,
                touched.Inside low last) ↔ ∀ touched ∈ run.touched, touched.Inside low last := by
              simp only [Run.after, List.forall_mem_append, List.forall_mem_cons]
              exact ⟨And.right, fun h => ⟨⟨hread, ⟨hlow, hwindow⟩, fun _ hm => absurd hm List.not_mem_nil⟩, h⟩⟩
            rw [if_pos hfound, if_pos hfound, hrun, greedyFrom_match hpos hfound, stays_match hsame]
            exact ⟨_, rfl, hall.trans hstays, fun h => hsame' (hall.mp h)⟩
          · obtain ⟨run, hrun, hstays, hsame'⟩ := ih rounds' (source + 1) maxReplaces num memory (by omega)
              (fun a ha => hinner a (by omega)) (by omega) (by omega)
            rw [show inner - (source + 1) = left by omega] at hstays
            have hall : (∀ touched ∈ (Run.after [readAt reads search memory source] run).touched,
                touched.Inside low last) ↔ ∀ touched ∈ run.touched, touched.Inside low last := by
              simp only [Run.after, List.forall_mem_append, List.forall_mem_cons]
              exact ⟨And.right, fun h => ⟨⟨hread, fun _ hm => absurd hm List.not_mem_nil⟩, h⟩⟩
            rw [if_neg hfound, if_neg hfound, hrun, greedyFrom_step hfound, stays_step hwindow]
            exact ⟨_, rfl, hall.trans hstays, fun h => hsame' (hall.mp h)⟩
        · have hout : last < source + search.length := by omega
          have hmine : (readAt reads search memory source).Inside low last ↔
              (readAt reads search memory source).Inside source last := by
            unfold Touched.Inside
            exact and_congr_left fun _ => ⟨fun _ => le_rfl, fun _ => hlow⟩
          have hstop : ¬(source < inner ∧ (free = true ∨ 0 < maxReplaces)) := fun h => hin h.1
          rw [if_neg hstop, Nat.sub_eq_zero_of_le (by omega), greedyFrom, stays_tail hgo.1 hout hgo.2, ← hmine]
          by_cases hfound : holds memory source search = true
          · obtain ⟨run, hrun, -⟩ := ih rounds' (source + search.length) (maxReplaces - 1) (num + 1)
              (store memory source replace) (by omega) (fun a ha => hinner a (by omega)) (by omega) (by omega)
            have hnot : ¬(readAt reads search memory source).Inside low last := by
              rw [readAt_match hfound]
              exact fun h => absurd h.2 (not_le.mpr hout)
            have hall : ¬∀ touched ∈ (Run.after [readAt reads search memory source, ⟨source, search.length⟩] run).touched,
                touched.Inside low last := fun h => hnot (h _ List.mem_cons_self)
            rw [if_pos hfound, hrun]
            exact ⟨_, rfl, ⟨fun h => absurd h hall, fun h => absurd h.1 hnot⟩, fun h => absurd h hall⟩
          · obtain ⟨run, hrun, hstays, hsame'⟩ := ih (last - (source + 1) + 1) (source + 1) maxReplaces num memory (by omega)
              (fun a ha => hinner a (by omega)) (by omega) (by omega)
            rw [Nat.sub_eq_zero_of_le (by omega), greedyFrom] at hstays
            rw [replaceFrom, if_neg (fun h => by omega)] at hsame'
            have hall : (∀ touched ∈ (Run.after [readAt reads search memory source] run).touched,
                touched.Inside low last) ↔ (readAt reads search memory source).Inside low last ∧
                  ∀ touched ∈ run.touched, touched.Inside low last := by
              simp only [Run.after, List.forall_mem_append, List.forall_mem_cons]
              exact and_congr_left fun _ => ⟨And.left, fun h => ⟨h, fun _ hm => absurd hm List.not_mem_nil⟩⟩
            rw [if_neg hfound, hrun]
            exact ⟨_, rfl, hall.trans (and_congr_right fun _ => hstays), fun h => hsame' (hall.mp h).2⟩
      · have hstop : ¬(source < inner ∧ (free = true ∨ 0 < maxReplaces)) := fun h => hgo ⟨by omega, h.2⟩
        rw [if_neg hgo, if_neg hstop]
        refine ⟨_, rfl, ⟨fun _ => ?_, fun _ _ hm => absurd hm List.not_mem_nil⟩, fun _ => rfl⟩
        rcases not_and_or.mp hgo with hend | hspent
        · exact Or.inr fun a ha _ hlt => by omega
        · rw [not_or, Bool.not_eq_true] at hspent
          exact Or.inl ⟨hspent.1, by omega⟩

/-- The two patchers agree, and the one for the video BIOS stays in its region, exactly when the matches inside use up the
replacements or no comparison behind them reads past the end. -/
theorem agrees_iff (reads : CompareReads) (hpos : 0 < search.length) (hsame : replace.length = search.length)
    (memory : Memory) (source sourceSize : Nat) (maxReplaces : Int) :
    Agrees reads search replace memory source sourceSize maxReplaces ↔
      (0 < maxReplaces ∧ maxReplaces ≤ (greedy memory search source sourceSize).length) ∨
        TailQuiet reads search memory source (source + sourceSize) (greedy memory search source sourceSize) := by
  obtain ⟨run, hrun, hstays, hreplace⟩ := @patchFrom_spec reads search replace (source + sourceSize)
    (decide (maxReplaces ≤ 0)) hpos hsame source (source + (sourceSize + 1 - search.length))
    (sourceSize + 1) (sourceSize + 2) source maxReplaces 0 memory le_rfl (fun a ha => by omega) (by omega) (by omega)
  rw [Nat.add_sub_cancel_left] at hstays
  have hfree : decide (maxReplaces ≤ 0) = false ↔ 0 < maxReplaces := by rw [decide_eq_false_iff_not, not_le]
  rw [Stays, hfree] at hstays
  refine Iff.trans ?_ hstays
  constructor
  · rintro ⟨run', after, hrun', -, -, hinside⟩
    obtain rfl := Option.some.inj (hrun.symm.trans hrun')
    exact hinside
  · intro hinside
    exact ⟨run, run.memory, hrun, hreplace hinside, fun _ _ _ => rfl, hinside⟩

/-- The comparison that goes on until the first difference. -/
def untilDifference : Bytes → Bytes → Nat
  | c :: window, d :: search => if c = d then untilDifference window search + 1 else 1
  | _, _ => 0

theorem untilDifference_le (window search : Bytes) : untilDifference window search ≤ search.length := by
  induction search generalizing window with
  | nil => cases window <;> exact le_rfl
  | cons d search ih =>
      cases window with
      | nil => exact Nat.zero_le _
      | cons c window =>
          rw [untilDifference, List.length_cons]
          split_ifs
          · exact Nat.succ_le_succ (ih window)
          · exact Nat.succ_pos _

theorem untilDifference_self (search : Bytes) : untilDifference search search = search.length := by
  induction search with
  | nil => rfl
  | cons c search ih => rw [untilDifference, if_pos rfl, ih, List.length_cons]

def compareMem : CompareReads := ⟨untilDifference, untilDifference_le, untilDifference_self⟩

/-- `aab` at 16, and behind it more of `a`. -/
def lettersAround : Memory := fun x => if x = 18 then 98 else 97

theorem lettersAround_agrees_iff :
    Agrees compareMem [97, 97] [99, 99] lettersAround 16 3 0 ↔
      ((0 : Int) < 0 ∧ (0 : Int) ≤ (greedy lettersAround [97, 97] 16 3).length) ∨
        TailQuiet compareMem [97, 97] lettersAround 16 (16 + 3) (greedy lettersAround [97, 97] 16 3) := by
  have hpos : 0 < ([97, 97] : Bytes).length := Nat.succ_pos 1
  have hsame : ([99, 99] : Bytes).length = ([97, 97] : Bytes).length := rfl
  exact agrees_iff compareMem hpos hsame lettersAround 16 3 0

/-- Of three letters `a` that go on behind the region, the third is replaced together with the one behind it. -/
theorem threeLetters_disagree :
    ¬∀ (reads : CompareReads) (search replace : Bytes) (memory : Memory) (source sourceSize : Nat) (maxReplaces : Int),
      0 < search.length → replace.length = search.length → Agrees reads search replace memory source sourceSize maxReplaces := by
  intro h
  obtain ⟨run, after, hrun, hreplace, -⟩ := h compareMem [97, 97] [99, 99] (fun _ => 97) 16 3 0 (Nat.succ_pos 1) rfl
  have htwo : (videoBiosPatchSearchAndReplace compareMem [97, 97] [99, 99] (fun _ => 97) 16 3 0).map Run.numReplaces =
      some 2 := by decide
  have hone : (searchAndReplace (fun _ => 97) 16 3 [97, 97] [99, 99] 0).map Prod.snd = some 1 := by decide
  rw [hrun, Option.map_some, Option.some.injEq] at htwo
  rw [hreplace, Option.map_some, Option.some.injEq] at hone
  omega

end BareBoot.VideoBios
